import JobConsole.Proofs.News

/-!
Calls: the marks that a small step of a statement leaves behind when it sends a message. A call
begins, its message is accepted or refused, and it returns, in this order.
-/

namespace JobConsole

def Event.settled? : Event → Option (TaskId × Message × Bool)
  | accepted id m => some (id, m, true)
  | refused id m => some (id, m, false)
  | _ => none

/-- A call of a task that sends a message, by the number of calls that it began before. -/
structure Call where
  task : TaskId
  number : Nat
  deriving DecidableEq

inductive Mark
  | began (call : Call) (m : Message)
  | accepted (call : Call) (m : Message)
  | refused (call : Call) (m : Message)
  | returned (call : Call)

namespace Mark

def call : Mark → Call
  | began k _ | accepted k _ | refused k _ | returned k => k

/-- The place of a mark among all that a task can leave behind. -/
def rank : Mark → Nat
  | began k _ => 3 * k.number
  | accepted k _ | refused k _ => 3 * k.number + 1
  | returned k => 3 * k.number + 2

def accepted? : Mark → Option (Call × Message)
  | accepted k m => some (k, m)
  | _ => none

def settled? : Mark → Option (TaskId × Message × Bool)
  | accepted k m => some (k.task, m, true)
  | refused k m => some (k.task, m, false)
  | _ => none

def begins (id : TaskId) : Mark → Bool
  | began k _ => k.task = id
  | _ => false

def ofEvent (k : Call) : Event → Option Mark
  | .accepted _ m => some (.accepted k m)
  | .refused _ m => some (.refused k m)
  | _ => none

end Mark

def Statement.sends : Statement → Bool
  | progress _ | info _ | prompt _ | exit .. | ask _ | confirm .. => true
  | _ => false

def begun (h : List Mark) (id : TaskId) : Nat :=
  h.countP (Mark.begins id)

namespace Console

def Stage.isFinished : Stage → Bool
  | .finished _ => true
  | _ => false

def deedMarks (c : Console) (n : Nat) (id : TaskId) (s : Statement) (w : Wait)
    (p : Console × Stage) : List Mark :=
  let k : Call := ⟨id, if w = .fresh then n else n - 1⟩
  (if w = .fresh then (c.sending? id s w).toList.map (.began k) else []) ++
    ((p.1.events.drop c.events.length).filterMap (Mark.ofEvent k) ++
      if p.2.isFinished && s.sends then [.returned k] else [])

end Console

/-! Orderly marks. -/

open Console

def Orderly (h : List Mark) : Prop :=
  h.Pairwise fun x y => x.call.task = y.call.task → x.rank < y.rank

def Upto (h : List Mark) (id : TaskId) (r : Nat) : Prop :=
  ∀ x ∈ h, x.call.task = id → x.rank < r

inductive Reach (h : List Mark) (id : TaskId) (s : Statement) : Wait → Prop
  | idle {w : Wait} (hs : s.sends = false ∨ w = .fresh) (hr : ∀ m, w ≠ .room m)
      (hu : Upto h id (3 * begun h id)) : Reach h id s w
  | room {m : Message} {n : Nat} (hs : s.sends = true) (hn : begun h id = n + 1)
      (hb : .began ⟨id, n⟩ m ∈ h) (hu : Upto h id (3 * n + 1)) : Reach h id s (.room m)
  | sent {w : Wait} {n : Nat} (hs : s.sends = true) (hf : w ≠ .fresh) (hr : ∀ m, w ≠ .room m)
      (hn : begun h id = n + 1) (hu : Upto h id (3 * n + 2)) : Reach h id s w

variable {h new : List Mark} {id : TaskId} {r : Nat}

theorem Orderly.append (ho : Orderly h) (hu : Upto h id r) (hn : Orderly new)
    (hr : ∀ y ∈ new, y.call.task = id ∧ r ≤ y.rank) : Orderly (h ++ new) := by
  refine List.pairwise_append.2 ⟨ho, hn, fun x hx y hy he => ?_⟩
  obtain ⟨ht, hle⟩ := hr y hy
  exact Nat.lt_of_lt_of_le (hu x hx (he.trans ht)) hle

theorem Upto.append {r' : Nat} (hu : Upto h id r) (hle : r ≤ r') (hn : Upto new id r') :
    Upto (h ++ new) id r' := by
  intro x hx ht
  rcases List.mem_append.1 hx with hx | hx
  · exact Nat.lt_of_lt_of_le (hu x hx ht) hle
  · exact hn x hx ht

theorem begun_append (h new : List Mark) (id : TaskId) :
    begun (h ++ new) id = begun h id + begun new id :=
  List.countP_append ..

/-- What a task adds to the marks: its own ones, in order, from rank `r` on and below `r'`. -/
structure Continues (id : TaskId) (r : Nat) (new : List Mark) (r' : Nat) : Prop where
  orderly : Orderly new
  own : ∀ y ∈ new, y.call.task = id ∧ r ≤ y.rank ∧ y.rank < r'
  le : r ≤ r'

theorem Continues.append_orderly {r' : Nat} (hn : Continues id r new r') (ho : Orderly h)
    (hu : Upto h id r) : Orderly (h ++ new) :=
  ho.append hu hn.orderly fun y hy => ⟨(hn.own y hy).1, (hn.own y hy).2.1⟩

theorem Continues.append_upto {r' : Nat} (hn : Continues id r new r') (hu : Upto h id r) :
    Upto (h ++ new) id r' :=
  hu.append hn.le fun y hy _ => (hn.own y hy).2.2

theorem Continues.single (x : Mark) (hx : x.call.task = id) :
    Continues id x.rank [x] (x.rank + 1) := by
  refine ⟨List.pairwise_singleton _ _, fun y hy => ?_, Nat.le_succ _⟩
  rw [List.mem_singleton] at hy
  rw [hy]
  exact ⟨hx, Nat.le_refl _, Nat.lt_succ_self _⟩

def Matched (h : List Mark) : Prop :=
  ∀ k m, .accepted k m ∈ h → .began k m ∈ h

def Reaches (h : List Mark) (id : TaskId) (s : Statement) : Stage → Prop
  | .blocked w | .moving w => Reach h id s w
  | .finished _ | .crashed => Upto h id (3 * begun h id)

structure Noted (h new : List Mark) (id : TaskId) (s : Statement) (stage : Stage) : Prop where
  orderly : Orderly (h ++ new)
  own : ∀ y ∈ new, y.call.task = id
  matched : Matched (h ++ new)
  reach : Reaches (h ++ new) id s stage

variable {c d : Console} {s : Statement} {w : Wait} {stage : Stage}

theorem deedMarks_eq {news : List Event} (he : d.events = c.events ++ news) (n : Nat) :
    c.deedMarks n id s w (d, stage) =
      (if w = .fresh then
          (c.sending? id s w).toList.map (.began ⟨id, if w = .fresh then n else n - 1⟩) else []) ++
        (news.filterMap (Mark.ofEvent ⟨id, if w = .fresh then n else n - 1⟩) ++
          if stage.isFinished && s.sends then
            [.returned ⟨id, if w = .fresh then n else n - 1⟩] else []) := by
  simp only [deedMarks, he, List.drop_left]

theorem sends_of_message? {slot : ReplySlot} {m : Message} (h : s.message? slot = some m) :
    s.sends = true := by
  cases s <;> first | rfl | cases h

def Quiet (s : Statement) (w : Wait) : Prop :=
  (s.sends = false ∨ w ≠ .fresh) ∧ ∀ m, w ≠ .room m

def QuietAt (s : Statement) : Stage → Prop
  | .blocked w | .moving w => Quiet s w
  | .finished _ => True
  | .crashed => s.sends = false

theorem Reach.quiet {w' : Wait} (hr : Reach h id s w) (hw : Quiet s w) (hw' : Quiet s w') :
    Reach h id s w' := by
  cases hr with
  | idle hs hn hu =>
    have hs : s.sends = false := hs.elim (fun h => h) fun hf => hw.1.resolve_right (fun hn => hn hf)
    exact .idle (.inl hs) hw'.2 hu
  | room => exact absurd rfl (hw.2 _)
  | sent hs hf hr hn hu =>
    exact .sent hs (hw'.1.resolve_left (by simp [hs])) hw'.2 hn hu

theorem noted_nil (ho : Orderly h) (hm : Matched h) (hr : Reaches h id s stage) :
    Noted h [] id s stage := by
  constructor
  · rwa [List.append_nil]
  · exact nofun
  · rwa [List.append_nil]
  · rwa [List.append_nil]

theorem Reach.upto (hr : Reach h id s w) (hw : Quiet s w) (hs : s.sends = false) :
    Upto h id (3 * begun h id) := by
  cases hr with
  | idle _ _ hu => exact hu
  | room => exact absurd rfl (hw.2 _)
  | sent h => rw [hs] at h; cases h

theorem noted_returned {n : Nat} {o : Outcome} (ho : Orderly h) (hm : Matched h)
    (hn : begun h id = n + 1) (hu : Upto h id (3 * n + 2)) :
    Noted h [.returned ⟨id, n⟩] id s (.finished o) := by
  have hc := @Continues.single id (.returned ⟨id, n⟩) rfl
  have hb : begun (h ++ [.returned ⟨id, n⟩]) id = n + 1 := by
    rw [begun_append, hn]
    rfl
  constructor
  · exact hc.append_orderly ho hu
  · exact fun y hy => (hc.own y hy).1
  · intro k m hk
    simp only [List.mem_append, List.mem_singleton, reduceCtorEq, or_false] at hk ⊢
    exact hm k m hk
  · have hu' := hc.append_upto hu
    change Upto _ id (3 * begun _ id)
    rw [hb]
    exact hu'

theorem noted_quiet (ho : Orderly h) (hm : Matched h) (hr : Reach h id s w) (hw : Quiet s w)
    (hstage : QuietAt s stage) :
    Noted h (if stage.isFinished && s.sends then
      [.returned ⟨id, if w = .fresh then begun h id else begun h id - 1⟩] else []) id s stage := by
  cases stage with
  | blocked w' => exact noted_nil ho hm (hr.quiet hw hstage)
  | moving w' => exact noted_nil ho hm (hr.quiet hw hstage)
  | crashed => exact noted_nil ho hm (hr.upto hw hstage)
  | finished o =>
    cases hs : s.sends with
    | false => exact noted_nil ho hm (hr.upto hw hs)
    | true =>
      have hf : w ≠ .fresh := hw.1.resolve_left (by simp [hs])
      cases hr with
      | idle h => exact (h.elim (by simp [hs]) hf).elim
      | room => exact absurd rfl (hw.2 _)
      | sent _ _ _ hn hu =>
        simp only [Stage.isFinished, Bool.and_self, if_true, if_neg hf, hn, Nat.add_sub_cancel]
        exact noted_returned ho hm hn hu

theorem Noted.trans {xs ys : List Mark} {stage' : Stage} (hx : Noted h xs id s stage')
    (hy : Noted (h ++ xs) ys id s stage) : Noted h (xs ++ ys) id s stage := by
  obtain ⟨ho, ht, hm, hr⟩ := hy
  rw [List.append_assoc] at ho hm hr
  exact ⟨ho, fun y h => (List.mem_append.1 h).elim (hx.own y) (ht y), hm, hr⟩

theorem begun_began {n : Nat} {m : Message} :
    begun (h ++ [.began ⟨id, n⟩ m]) id = begun h id + 1 := by
  simp [begun, Mark.begins]

theorem noted_began (ho : Orderly h) (hm : Matched h) (hr : Reach h id s .fresh)
    (hs : s.sends = true) (m : Message) :
    Noted h [.began ⟨id, begun h id⟩ m] id s (.blocked (.room m)) := by
  have hu : Upto h id (3 * begun h id) := by
    cases hr with
    | idle _ _ hu => exact hu
    | sent _ hf => exact absurd rfl hf
  have hc := @Continues.single id (.began ⟨id, begun h id⟩ m) rfl
  constructor
  · exact hc.append_orderly ho hu
  · exact fun y hy => (hc.own y hy).1
  · intro k m' hk
    simp only [List.mem_append, List.mem_singleton, reduceCtorEq, or_false] at hk ⊢
    exact .inl (hm k m' hk)
  · refine .room hs ?_ (List.mem_append_right _ (List.mem_singleton_self _)) (hc.append_upto hu)
    exact begun_began

theorem Reach.of_room {n : Nat} {m : Message} (hr : Reach h id s (.room m))
    (hn : begun h id = n + 1) :
    s.sends = true ∧ .began ⟨id, n⟩ m ∈ h ∧ Upto h id (3 * n + 1) := by
  cases hr with
  | idle _ h => exact absurd rfl (h m)
  | sent _ _ h => exact absurd rfl (h m)
  | @room _ k hs hk hb hu =>
    have he : k = n := by omega
    subst he
    exact ⟨hs, hb, hu⟩

theorem Reach.begun_pos {m : Message} (hr : Reach h id s (.room m)) :
    begun h id = begun h id - 1 + 1 := by
  cases hr with
  | idle _ h => exact absurd rfl (h m)
  | sent _ _ h => exact absurd rfl (h m)
  | room _ hk => omega

theorem noted_resolved {n : Nat} {m : Message} (b : Bool) (ho : Orderly h) (hm : Matched h)
    (hr : Reach h id s (.room m)) (hn : begun h id = n + 1) :
    Noted h ([if b then .accepted ⟨id, n⟩ m else .refused ⟨id, n⟩ m] ++
      if (afterSend b m).isFinished && s.sends then [.returned ⟨id, n⟩] else []) id s
      (afterSend b m) := by
  obtain ⟨hs, hb, hu⟩ := hr.of_room hn
  generalize hx : (if b then Mark.accepted ⟨id, n⟩ m else .refused ⟨id, n⟩ m) = x
  have hk : x.call = ⟨id, n⟩ := by subst hx; cases b <;> rfl
  have hrank : x.rank = 3 * n + 1 := by subst hx; cases b <;> rfl
  have hc : Continues id (3 * n + 1) [x] (3 * n + 2) := by
    simpa only [hrank] using @Continues.single id x (by rw [hk])
  have hbegun : begun (h ++ [x]) id = n + 1 := by
    subst hx
    rw [begun_append, hn]
    cases b <;> rfl
  have hmatched : Matched (h ++ [x]) := by
    intro k m' hk
    rcases List.mem_append.1 hk with hk | hk
    · exact List.mem_append_left _ (hm k m' hk)
    · rw [List.mem_singleton] at hk
      subst hx
      cases b with
      | true =>
        cases hk
        exact List.mem_append_left _ hb
      | false => cases hk
  have hreach (w : Wait) (hf : w ≠ .fresh) (hr : ∀ m, w ≠ .room m) : Noted h [x] id s (.moving w) :=
    ⟨hc.append_orderly ho hu, fun y hy => (hc.own y hy).1, hmatched,
      .sent hs hf hr hbegun (hc.append_upto hu)⟩
  cases m with
  | prompt text slot => cases b <;> exact hreach _ nofun nofun
  | exit text code => exact hreach _ nofun nofun
  | _ =>
    have hl := hreach .termination nofun nofun
    simp only [afterSend, Stage.isFinished, hs, Bool.and_self, if_true]
    exact hl.trans (noted_returned hl.orderly hmatched hbegun (hc.append_upto hu))

theorem quiet_of_still (hd : Still c id s w stage) (hr : ∀ m, w ≠ .room m) :
    Quiet s w ∧ QuietAt s stage := by
  cases hd with
  | unserved => exact absurd rfl (hr _)
  | park h => subst h; exact ⟨⟨.inl rfl, nofun⟩, .inl rfl, nofun⟩
  | hang h => subst h; exact ⟨⟨.inl rfl, nofun⟩, .inl rfl, nofun⟩
  | look h => subst h; exact ⟨⟨.inl rfl, nofun⟩, trivial⟩
  | nap h => subst h; exact ⟨⟨.inl rfl, nofun⟩, trivial⟩
  | crash h => subst h; exact ⟨⟨.inl rfl, nofun⟩, rfl⟩
  | _ => exact ⟨⟨.inr nofun, nofun⟩, by first | trivial | exact ⟨.inr nofun, nofun⟩⟩

theorem sending?_eq_none (hw : Quiet s w) : c.sending? id s w = none := by
  cases w with
  | fresh =>
    have hs : s.sends = false := hw.1.resolve_right (fun h => h rfl)
    cases s <;> first | rfl | cases hs
  | room m => exact absurd rfl (hw.2 m)
  | _ => rfl

theorem Console.Supervised.silent {k : Nat} {interactive first : Bool}
    (hd : Supervised c k interactive d first) :
    ∃ news, d.events = c.events ++ news ∧ ∀ k, news.filterMap (Mark.ofEvent k) = [] := by
  cases hd with
  | already => exact ⟨_, events_log _ _, fun _ => rfl⟩
  | started => exact ⟨_, events_log c _, fun _ => rfl⟩

theorem noted_unreported (ho : Orderly h) (hm : Matched h) (hr : Reach h id s w) (hw : Quiet s w)
    (hstage : QuietAt s stage)
    {news : List Event} (he : d.events = c.events ++ news)
    (hnews : ∀ k, news.filterMap (Mark.ofEvent k) = []) :
    Noted h (c.deedMarks (begun h id) id s w (d, stage)) id s stage := by
  rw [deedMarks_eq he, hnews, sending?_eq_none hw, List.nil_append]
  simp only [Option.toList_none, List.map_nil, ite_self, List.nil_append]
  exact noted_quiet ho hm hr hw hstage

theorem noted_settled {m : Message} {news : List Event} (b : Bool) (ho : Orderly h)
    (hm : Matched h) (hr : Reach h id s w) (hs : c.sending? id s w = some m)
    (he : d.events = c.events ++ news)
    (hnews : ∀ k, news.filterMap (Mark.ofEvent k) = [if b then .accepted k m else .refused k m]) :
    Noted h (c.deedMarks (begun h id) id s w (d, afterSend b m)) id s (afterSend b m) := by
  rw [deedMarks_eq he, hnews]
  cases w with
  | fresh =>
    have hn := noted_began ho hm hr (sends_of_message? hs) m
    simp only [if_true, hs, Option.toList_some, List.map_cons, List.map_nil]
    exact hn.trans (noted_resolved b hn.orderly hn.matched hn.reach begun_began)
  | room m' =>
    obtain rfl : m' = m := Option.some.inj hs
    exact noted_resolved b ho hm hr hr.begun_pos
  | _ => cases hs

theorem Console.Deed.noted (hd : Deed c id s w d stage) (ho : Orderly h) (hm : Matched h)
    (hr : Reach h id s w) : Noted h (c.deedMarks (begun h id) id s w (d, stage)) id s stage := by
  have he : c.events = c.events ++ [] := by rw [List.append_nil]
  cases hd with
  | still hstill =>
    by_cases hw : ∀ m, w ≠ .room m
    · obtain ⟨hq, hstage⟩ := quiet_of_still hstill hw
      exact noted_unreported ho hm hr hq hstage he fun _ => rfl
    · cases hstill with
      | unserved =>
        rw [deedMarks_eq he]
        exact noted_nil ho hm hr
      | _ => exact absurd nofun hw
  | accept hs _ hb => exact noted_settled true ho hm hr hs (events_record _ _) fun _ => rfl
  | @refuse m slots hs hc =>
    have he : ((Console.record { c with slots } (.refused id m)).log (.dropped m.kind)).events =
        c.events ++ [.refused id m, .logged (.dropped m.kind)] := by
      rw [events_log, events_record, List.append_assoc]
      rfl
    exact noted_settled false ho hm hr hs he fun _ => rfl
  | @join m slots hw hs ho' hroom =>
    subst hw
    rw [deedMarks_eq (d := { c with slots, mailbox := c.mailbox.join id }) he]
    simp only [if_true, hs, Option.toList_some, List.map_cons, List.map_nil]
    exact noted_began ho hm hr (sends_of_message? hs) m
  | park hw ht =>
    have hq : Quiet s w := by rcases hw with rfl | rfl <;> exact ⟨.inr nofun, nofun⟩
    have hp : (c.park id).events = c.events ++ [] := by
      unfold Console.park
      split <;> exact he
    exact noted_unreported ho hm hr hq hq hp fun _ => rfl
  | @supervise k interactive hw hs =>
    subst hs
    obtain ⟨news, hn, hp⟩ := (c.supervise_cases k interactive).silent
    exact noted_unreported ho hm hr ⟨.inl rfl, by simp [hw]⟩ trivial hn hp
  | sleep hw hs =>
    subst hs
    exact noted_unreported ho hm hr ⟨.inl rfl, by simp [hw]⟩ ⟨.inl rfl, nofun⟩ he fun _ => rfl

end JobConsole
