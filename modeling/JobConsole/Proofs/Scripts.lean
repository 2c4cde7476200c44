import JobConsole.Proofs.Settling

namespace JobConsole.Console

variable {c d : Console} {id : TaskId} {a : Activity} {s : Statement} {w : Wait} {stage : Stage}
  {note : Outcome → Event} {pace : Pace} {more : Bool} {time : Nat}

/-- It is that time, and all timers are set for later, the earliest first. -/
structure Wound (time : Nat) (c : Console) : Prop where
  now : c.now = time
  sorted : c.timers.Pairwise fun t u => t.deadline ≤ u.deadline
  ahead : ∀ t ∈ c.timers, time < t.deadline

theorem lt_deadline_of_mem_dropWhile {n : Nat} {timers : List Timer}
    (h : timers.Pairwise fun t u => t.deadline ≤ u.deadline) :
    ∀ u ∈ timers.dropWhile (·.deadline ≤ n), n < u.deadline := by
  induction h with
  | nil => nofun
  | @cons t timers ht _ ih =>
    by_cases hn : t.deadline ≤ n
    · rwa [List.dropWhile_cons_of_pos (by simpa using hn)]
    · rw [List.dropWhile_cons_of_neg (by simpa using hn)]
      intro u hu
      rcases List.mem_cons.1 hu with rfl | hu
      · exact Nat.lt_of_not_le hn
      · exact Nat.lt_of_lt_of_le (Nat.lt_of_not_le hn) (ht u hu)

theorem pairwise_setTimer (h : c.timers.Pairwise fun t u => t.deadline ≤ u.deadline) (t : Timer) :
    (c.setTimer t).timers.Pairwise fun t u => t.deadline ≤ u.deadline := by
  have hlater := lt_deadline_of_mem_dropWhile (n := t.deadline) h
  have hsplit := List.takeWhile_append_dropWhile (p := (·.deadline ≤ t.deadline)) (l := c.timers)
  rw [← hsplit] at h
  obtain ⟨hbefore, hafter, hcross⟩ := List.pairwise_append.1 h
  refine List.pairwise_append.2 ⟨hbefore, List.pairwise_cons.2 ⟨fun u hu =>
    Nat.le_of_lt (hlater u hu), hafter⟩, fun u hu v hv => ?_⟩
  rcases List.mem_cons.1 hv with rfl | hv
  · simpa using List.mem_takeWhile_imp hu
  · exact hcross u hu v hv

namespace Wound

theorem of_sublist (h : Wound time c) (ht : d.timers.Sublist c.timers) (hn : d.now = c.now) :
    Wound time d :=
  ⟨hn.trans h.now, h.sorted.sublist ht, fun t hm => h.ahead t (ht.subset hm)⟩

theorem of_eq (h : Wound time c) (ht : d.timers = c.timers) (hn : d.now = c.now) : Wound time d :=
  h.of_sublist (ht ▸ List.Sublist.refl _) hn

theorem setTimer (h : Wound time c) {t : Timer} (ht : time < t.deadline) :
    Wound time (c.setTimer t) := by
  refine ⟨h.now, pairwise_setTimer h.sorted t, fun u hu => ?_⟩
  rcases List.mem_append.1 hu with hu | hu
  · exact h.ahead u ((List.takeWhile_prefix _).subset hu)
  · rcases List.mem_cons.1 hu with rfl | hu
    · exact ht
    · exact h.ahead u ((List.dropWhile_suffix _).subset hu)

theorem setActivity (h : Wound time c) (id : TaskId) (a : Activity) :
    Wound time (c.setActivity id a) := by
  obtain ⟨producers, ticker, he⟩ := c.setActivity_eq id a
  rw [he]
  exact h.of_eq rfl rfl

theorem deed (h : Wound time c) (hd : Deed c id s w d stage) : Wound time d := by
  cases hd with
  | still => exact h
  | accept | refuse | join => exact h.of_eq rfl rfl
  | park =>
    obtain ⟨parked, he⟩ := c.park_eq id
    rw [he]
    exact h.of_eq rfl rfl
  | @supervise k interactive =>
    have hs := c.supervise_cases k interactive
    generalize (c.supervise k interactive).1 = d, (c.supervise k interactive).2 = first at hs
    cases hs <;> exact h.of_eq rfl rfl
  | sleep _ _ hn =>
    exact h.setTimer (h.now ▸ Nat.lt_add_of_pos_right (Nat.pos_of_ne_zero hn))

theorem pursuit (h : Wound time c) (hd : Pursuit c id a note d pace) : Wound time d := by
  cases hd with
  | ended => exact h
  | rested _ he | moved _ he | followed _ he => exact (h.deed (deed_of_perform he)).setActivity _ _
  | crashed _ he => exact h.deed (deed_of_perform he)
  | @finished s rest e o _ he =>
    have he := h.deed (deed_of_perform he)
    exact setActivity (c := e.record (note o)) (he.of_eq rfl rfl) _ _

theorem producerTurn {n : Nat} (h : Wound time c) (hd : ProducerTurn c n d more) :
    Wound time d := by
  cases hd with
  | off => exact h
  | on _ hd => exact h.pursuit hd
  | quit _ hd => exact (h.pursuit hd).of_eq rfl rfl

theorem pause (h : Wound time c) : Wound time c.pause := by
  have hpos : 1 ≤ c.intervalMilliseconds := c.settings.one_le_ceilMilliseconds_interval
  exact setTimer (c := { c with ticker := .sleeping (c.now + c.intervalMilliseconds) })
    (h.of_eq rfl rfl) (h.now ▸ Nat.lt_add_of_pos_right hpos)

theorem callTurn {v : Supervision} {request : Option Request} (h : Wound time c)
    (hd : CallTurn c v request a d more) : Wound time d := by
  cases hd with
  | on hd => exact h.pursuit hd
  | ended hd => exact pause ((h.pursuit hd).of_eq rfl rfl)
  | crashed hd => cases request <;> exact pause ((h.pursuit hd).of_eq rfl rfl)

theorem tickerTurn (h : Wound time c) (hd : TickerTurn c d more) : Wound time d := by
  cases hd with
  | off | asleep => exact h
  | stop => exact h.of_sublist List.filter_sublist rfl
  | @call v =>
    obtain ⟨request, supervision, ticker, journal, he⟩ := c.beginCall_eq v
    rw [he]
    exact h.of_eq rfl rfl
  | on _ _ _ hd hp => exact h.callTurn (.on hd hp)
  | ended _ _ _ hd => exact h.callTurn (.ended hd)
  | crashed _ _ _ hd => exact h.callTurn (.crashed hd)
  | due => exact h.of_eq rfl rfl

theorem turn (h : Wound time c) (id : TaskId) : Wound time (c.turn id).1 := by
  cases id with
  | printer =>
    obtain ⟨_, _, _, _, _, _, _, _, _, _, he⟩ := (printerTurn_cases c).frame
    rw [Console.turn, he]
    exact h.of_eq rfl rfl
  | signalWatch =>
    obtain ⟨_, _, _, he⟩ := (signalWatchTurn_cases c).frame
    rw [Console.turn, he]
    exact h.of_eq rfl rfl
  | keywordWatch =>
    obtain ⟨_, _, _, _, _, he⟩ := (keywordWatchTurn_cases c).frame
    rw [Console.turn, he]
    exact h.of_eq rfl rfl
  | ticker => exact h.tickerTurn (tickerTurn_cases c)
  | producer n => exact h.producerTurn (producerTurn_cases c n)

theorem work (h : Wound time c) (id : TaskId) : Wound time (c.work id) := by
  rcases c.work_cases id with ⟨v, request, a, -, -, -, he⟩ | ⟨-, he⟩ <;> rw [he]
  · exact h.callTurn (callTurn_cases c v request a)
  · have hc : Wound time { c with terminated := false } := h.of_eq rfl rfl
    exact (hc.turn id).of_eq rfl rfl

theorem step (h : Wound time c) (id : TaskId) : Wound time (c.step id) := by
  obtain ⟨ready, he⟩ := c.turn_eq_step id
  rw [he]
  exact (h.turn id).of_eq rfl rfl

theorem settle (h : Wound time c) : Wound time c.settle :=
  settle_induction (fun _ id h _ => h.step id) h

theorem ring (h : Wound time c) (later : Nat) : Wound later (c.ring later) :=
  ⟨rfl, h.sorted.sublist List.filter_sublist, fun _ hm => of_decide_eq_true (List.mem_filter.1 hm).2⟩

theorem self (h : Wound time c) : Wound c.now c :=
  h.now.symm ▸ h

theorem act (h : Wound time c) (m : Move) : Wound (c.act m).now (c.act m) := by
  cases m with
  | step id => exact (h.step id).self
  | pass later => exact h.ring later
  | kill n =>
    simp only [Console.act, Console.kill]
    split
    · exact h.self
    · exact self (h.of_sublist List.filter_sublist rfl)
  | raise s =>
    simp only [Console.act, Console.raise]
    split <;> exact self (h.of_eq rfl rfl)
  | start k interactive =>
    have hd := h.deed (.supervise rfl rfl : Deed c .printer (.start k interactive) .fresh _ _)
    exact self (hd.of_eq rfl rfl)
  | _ => exact self (h.of_eq rfl rfl)

end Wound

theorem Attainable.wound (h : c.Attainable) : Wound c.now c := by
  refine h.invariant (P := fun c => Wound c.now c) (fun h₀ => ?_) (fun c m _ _ hc => hc.act m)
    fun c id _ _ _ _ hc => (hc.work id).self
  obtain ⟨-, rfl⟩ := new?_eq_some.1 h₀
  exact ⟨rfl, .nil, nofun⟩

/-! Scripts. -/

def Leads (c d : Console) : Prop :=
  ∃ xs, Course c xs d

theorem Leads.refl (c : Console) : Leads c c :=
  ⟨[], .start⟩

theorem Leads.trans {e : Console} (h : Leads c d) (g : Leads d e) : Leads c e := by
  obtain ⟨xs, h⟩ := h
  obtain ⟨ys, g⟩ := g
  exact ⟨xs ++ ys, h.append g⟩

theorem Leads.attainable (h : Leads c d) (hc : c.Attainable) : d.Attainable := by
  obtain ⟨xs, h⟩ := h
  exact h.attainable hc

theorem leads_act {m : Move} (h : c.allows m = true) : Leads c (c.act m) :=
  ⟨[.move m], .next (.move m) .start h⟩

theorem leads_settle (c : Console) : Leads c c.settle :=
  settle_induction (P := Leads c)
    (fun _ id h hi => h.trans (leads_act (m := .step id) (decide_eq_true hi))) (.refl c)

theorem ring_of_ahead (h : ∀ t ∈ c.timers, time < t.deadline) :
    c.ring time = { c with now := time } := by
  have hlater : c.timers.filter (time < ·.deadline) = c.timers := by simpa using h
  have hdue : c.timers.filter (·.deadline ≤ time) = [] := by simpa using h
  unfold ring
  rw [hlater, hdue]
  rfl

theorem leads_pass (hn : c.now ≤ time) (h : ∀ t ∈ c.timers, time < t.deadline) :
    Leads c { c with now := time } := by
  rw [← ring_of_ahead h]
  exact leads_act (m := .pass time) (decide_eq_true hn)

theorem Wound.due_or_ahead {now : Nat} (h : Wound now c) (time : Nat) :
    (∃ t timers, c.timers = t :: timers ∧ t.deadline ≤ time) ∨
      ∀ t ∈ c.timers, time < t.deadline := by
  have hs := h.sorted
  generalize c.timers = ts at hs ⊢
  cases hs with
  | nil => exact .inr nofun
  | @cons t timers ht hs =>
    by_cases hdue : t.deadline ≤ time
    · exact .inl ⟨t, timers, rfl, hdue⟩
    · refine .inr fun u hu => ?_
      rcases List.mem_cons.1 hu with rfl | hu
      · exact Nat.lt_of_not_le hdue
      · exact Nat.lt_of_lt_of_le (Nat.lt_of_not_le hdue) (ht u hu)

theorem passUntil_of_due {t : Timer} {timers : List Timer} (n : Nat) (ht : c.timers = t :: timers)
    (hdue : t.deadline ≤ time) :
    passUntil time (n + 1) c = passUntil time n (c.ring t.deadline).settle := by
  rw [passUntil, ht]
  exact if_pos hdue

theorem passUntil_of_ahead (n : Nat) (h : ∀ t ∈ c.timers, time < t.deadline) :
    passUntil time (n + 1) c = { c with now := time } := by
  rw [passUntil]
  split
  · rfl
  · rename_i t timers ht
    exact if_neg (Nat.not_le.2 (h t (ht ▸ List.mem_cons_self)))

theorem leads_passUntil (n : Nat) {c : Console} {now : Nat} (h : Wound now c) (hle : now ≤ time)
    (hn : time ≤ now + n) : Leads c (passUntil time n c) := by
  induction n generalizing c now with
  | zero =>
    have he : { c with now := time } = c := by
      rw [← Nat.le_antisymm hle hn, ← h.now]
    rw [passUntil, he]
    exact .refl c
  | succ n ih =>
    rcases h.due_or_ahead time with ⟨t, timers, ht, hdue⟩ | hahead
    · have hlt := h.ahead t (ht ▸ List.mem_cons_self)
      have hring : Leads c (c.ring t.deadline) :=
        leads_act (m := .pass t.deadline) (decide_eq_true (h.now ▸ hlt.le))
      rw [passUntil_of_due n ht hdue]
      exact (hring.trans (leads_settle _)).trans (ih (h.ring t.deadline).settle hdue (by omega))
    · rw [passUntil_of_ahead n hahead]
      exact leads_pass (h.now ▸ hle) hahead

theorem leads_elapse (h : c.Attainable) (milliseconds : Nat) : Leads c (c.elapse milliseconds) :=
  leads_passUntil _ h.wound (Nat.le_add_right ..) (Nat.le_refl _)

theorem leads_spawn (programs : List Program) {c : Console} (h : c.hosted = true) :
    Leads c (programs.foldl spawn c) := by
  induction programs generalizing c with
  | nil => exact .refl c
  | cons p programs ih =>
    have hs : Leads c (c.spawn p) := leads_act (m := .spawn p) (by simp [allows, isHeld, h])
    exact hs.trans (ih h)

theorem leads_raise (raised : List Signal) (c : Console) : Leads c (raised.foldl raise c) := by
  induction raised generalizing c with
  | nil => exact .refl c
  | cons s raised ih =>
    have hs : Leads c (c.raise s) := leads_act (m := .raise s) rfl
    exact hs.trans (ih _)

theorem leads_scriptAct (h : c.Attainable) (s : Script.Step) : Leads c (Script.act c s) := by
  cases s with
  | spawn programs =>
    rw [Script.act]
    split
    · rename_i hh
      exact leads_spawn programs hh
    · exact .refl c
  | kill n => exact leads_act (m := .kill n) rfl
  | feed piece => exact leads_act (m := .feed piece) rfl
  | close => exact leads_act (m := .close) rfl
  | sink sink => exact leads_act (m := .setSink sink) rfl
  | advance milliseconds => exact leads_elapse h milliseconds
  | signals raised => exact leads_raise raised c
  | release => exact leads_act (m := .release) rfl
  | startDeaf k interactive cause =>
    rw [Script.act]
    split
    · rename_i hh
      have hd : Leads c { c with signalFault := some cause } :=
        leads_act (m := .deafen (some cause)) rfl
      exact hd.trans (leads_act (m := .start k interactive) hh)
    · exact .refl c

/-- What a script does to a console can be done in small steps and moves from outside. -/
theorem leads_perform (h : c.Attainable) (s : Script.Step) : Leads c (Script.perform c s) :=
  (leads_scriptAct h s).trans (leads_settle _)

theorem Attainable.perform (h : c.Attainable) (s : Script.Step) : (Script.perform c s).Attainable :=
  (leads_perform h s).attainable h

/-! Accounts. -/

theorem account_new {new old : List Entry} (h : c.journal = new ++ old) :
    (c.journal.take (c.journal.length - old.length)).reverse = new.reverse := by
  rw [h, List.length_append, Nat.add_sub_cancel, List.take_left]

theorem filterMap_filter_of_none {α β : Type} {q : α → Bool} {g : α → Option β}
    (hg : ∀ x, q x = false → g x = none) (xs : List α) : (xs.filter q).filterMap g = xs.filterMap g := by
  rw [List.filterMap_filter]
  congr 1
  funext x
  cases hx : q x with
  | true => rfl
  | false => simp [hg x hx]

theorem flatMap_filter_of_nil {α β : Type} {q : α → Bool} {g : α → List β}
    (hg : ∀ x, q x = false → g x = []) (xs : List α) : (xs.filter q).flatMap g = xs.flatMap g := by
  induction xs with
  | nil => rfl
  | cons x xs ih =>
    cases hx : q x with
    | true => rw [List.filter_cons_of_pos hx, List.flatMap_cons, List.flatMap_cons, ih]
    | false => rw [List.filter_cons_of_neg (by simp [hx]), List.flatMap_cons, hg x hx, ih, List.nil_append]

end JobConsole.Console
