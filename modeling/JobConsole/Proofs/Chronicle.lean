import Mathlib.Data.List.Basic
import JobConsole.Proofs.Calls
import JobConsole.Proofs.Standing
import JobConsole.Proofs.Ties

namespace JobConsole

namespace Console

def current? (c : Console) (id : TaskId) : Option Activity :=
  match c.standing id with
  | .busy a => if id = .ticker ∧ c.terminated then none else some a
  | _ => none

def activityMarks (c : Console) (h : List Mark) (id : TaskId) (a : Activity) : List Mark :=
  match a.program with
  | [] => []
  | s :: _ => c.deedMarks (begun h id) id s a.wait (c.perform id s a.wait)

def pursued? (c : Console) : Stride → Option (TaskId × Activity)
  | .move (.step id) => (c.current? id).map (id, ·)
  | .work id => (c.standing id).activity?.map (id, ·)
  | _ => none

def marks (c : Console) (h : List Mark) (x : Stride) : List Mark :=
  (c.pursued? x).elim [] fun p => c.activityMarks h p.1 p.2

/-- The console after some strides, and all marks that its tasks have left behind on the way. -/
def chronicle (c : Console) (xs : List Stride) : Console × List Mark :=
  xs.foldl (fun p x => (p.1.stride x, p.2 ++ p.1.marks p.2 x)) (c, [])

theorem chronicle_concat (c : Console) (xs : List Stride) (x : Stride) :
    c.chronicle (xs ++ [x]) = ((c.chronicle xs).1.stride x,
      (c.chronicle xs).2 ++ (c.chronicle xs).1.marks (c.chronicle xs).2 x) := by
  unfold chronicle
  rw [List.foldl_append]
  rfl

section

variable {c : Console} {x : Stride} {id : TaskId} {a : Activity}

theorem pursued?_of_current? (h : c.current? id = none) : c.pursued? (.move (.step id)) = none := by
  rw [pursued?, h, Option.map_none]

theorem busy_of_pursued? (h : c.pursued? x = some (id, a)) : c.standing id = .busy a := by
  cases x with
  | move m =>
    cases m with
    | step j =>
      obtain ⟨b, hb, he⟩ := Option.map_eq_some_iff.1 h
      cases he
      unfold current? at hb
      split at hb
      · rename_i b hc
        split at hb <;> cases hb
        exact hc
      · cases hb
    | _ => cases h
  | work j =>
    obtain ⟨b, hb, he⟩ := Option.map_eq_some_iff.1 h
    cases he
    exact Standing.activity?_eq_some.1 hb

theorem pursued?_calling {s : Supervision} {request : Option Request} (hs : c.supervision = some s)
    (hk : c.ticker = .calling request a) : c.pursued? (.work .ticker) = some (.ticker, a) := by
  simp [pursued?, standing_calling hs hk, Standing.activity?]

theorem pursued?_eq_none (hi : id ∈ watchers)
    (hn : ∀ s request a, id = .ticker → c.supervision = some s → c.ticker ≠ .calling request a) :
    c.pursued? (.work id) = none := by
  cases hp : c.pursued? (.work id) with
  | none => rfl
  | some p =>
    obtain ⟨b, hb, -⟩ := Option.map_eq_some_iff.1 hp
    have hb := Standing.activity?_eq_some.1 hb
    cases id with
    | ticker =>
      obtain ⟨hs, hk⟩ := standing_ticker.1 hb
      obtain ⟨s, hs⟩ := Option.isSome_iff_exists.1 hs
      cases hc : c.ticker with
      | calling request b => exact absurd hc (hn s request b rfl hs)
      | _ => simp [activity?, hc, Ticker.activity?] at hk
    | producer n => simp [watchers] at hi
    | _ => cases hb

end

end Console

open Console

variable {h new : List Mark} {id : TaskId} {c d : Console} {s : Statement} {w : Wait}
  {stage : Stage}

def Stands (h : List Mark) (id : TaskId) : Standing → Prop
  | .unborn => Upto h id 0
  | .gone => True
  | .between => Upto h id (3 * begun h id)
  | .busy { program := [], .. } => Upto h id (3 * begun h id)
  | .busy { program := s :: _, wait, .. } => Reach h id s wait

theorem Stands.started {p : Program} (hu : Upto h id (3 * begun h id)) :
    Stands h id (.busy { program := p }) := by
  cases p with
  | nil => exact hu
  | cons s rest => exact .idle (.inr rfl) nofun hu

theorem Upto.of_zero (hu : Upto h id 0) : Upto h id (3 * begun h id) :=
  fun x hx ht => absurd (hu x hx ht) (Nat.not_lt_zero _)

theorem Stands.told {x y : Standing} (hx : Stands h id x) (ht : Told x y) : Stands h id y := by
  cases ht with
  | same => exact hx
  | ended => trivial
  | started => exact Upto.of_zero hx
  | spawned p => exact .started (Upto.of_zero hx)
  | called p => exact .started hx
  | @hungUp a n hw =>
    obtain ⟨program, index, wait⟩ := a
    cases program with
    | nil => exact hx
    | cons s rest =>
      have hq : Quiet s wait := by rw [show wait = .reply n from hw]; exact ⟨.inr nofun, nofun⟩
      exact Reach.quiet hx hq ⟨.inr nofun, nofun⟩
  | @replied a n hw line =>
    obtain ⟨program, index, wait⟩ := a
    cases program with
    | nil => exact hx
    | cons s rest =>
      have hq : Quiet s wait := by rw [show wait = .reply n from hw]; exact ⟨.inr nofun, nofun⟩
      exact Reach.quiet hx hq ⟨.inr nofun, nofun⟩

theorem Stands.append_ne {x : Standing} {j : TaskId} (hx : Stands h j x)
    (hn : ∀ y ∈ new, y.call.task = id) (hj : j ≠ id) : Stands (h ++ new) j x := by
  have hu {r : Nat} (h' : Upto h j r) : Upto (h ++ new) j r :=
    h'.append (Nat.le_refl r) fun y hy ht => absurd (ht.symm.trans (hn y hy)) hj
  have hb : begun (h ++ new) j = begun h j := by
    rw [begun_append]
    have : begun new j = 0 := by
      refine List.countP_eq_zero.2 fun y hy hyb => hj ?_
      rw [← hn y hy]
      cases y with
      | began k m => exact (of_decide_eq_true hyb).symm
      | _ => cases hyb
    omega
  have hi (h' : Upto h j (3 * begun h j)) : Upto (h ++ new) j (3 * begun (h ++ new) j) := by
    rw [hb]
    exact hu h'
  cases x with
  | unborn => exact hu hx
  | gone => trivial
  | between => exact hi hx
  | busy a =>
    obtain ⟨program, index, wait⟩ := a
    cases program with
    | nil => exact hi hx
    | cons s rest =>
      cases hx with
      | idle hs hr h' => exact .idle hs hr (hi h')
      | room hs hn' hm h' => exact .room hs (hb.trans hn') (List.mem_append_left _ hm) (hu h')
      | sent hs hf hr hn' h' => exact .sent hs hf hr (hb.trans hn') (hu h')

structure Chronicled (c : Console) (h : List Mark) : Prop where
  orderly : Orderly h
  matched : Matched h
  stands : ∀ id, Stands h id (c.standing id)
  settled : h.filterMap Mark.settled? = c.events.filterMap Event.settled?

variable {hs : List Mark} {e : Console} {a : Activity} {note : Outcome → Event} {pace : Pace}

theorem settled_deedMarks {news : List Event} (he : d.events = c.events ++ news)
    (hn : ∀ e ∈ news, e.isDeeds id) (n : Nat) :
    (c.deedMarks n id s w (d, stage)).filterMap Mark.settled? = news.filterMap Event.settled? := by
  have hb (k : Call) (ms : List Message) : (ms.map (Mark.began k)).filterMap Mark.settled? = [] := by
    simp [Mark.settled?]
  have hm (k : Call) (hk : k.task = id) :
      (news.filterMap (Mark.ofEvent k)).filterMap Mark.settled? = news.filterMap Event.settled? := by
    rw [List.filterMap_filterMap]
    apply List.filterMap_congr
    intro e he
    have hd := hn e he
    cases e with
    | accepted sender m =>
      have hs : sender = id := of_decide_eq_true hd
      simp [Mark.ofEvent, Mark.settled?, Event.settled?, hk, hs]
    | refused sender m =>
      have hs : sender = id := of_decide_eq_true hd
      simp [Mark.ofEvent, Mark.settled?, Event.settled?, hk, hs]
    | _ => rfl
  rw [deedMarks_eq he, List.filterMap_append, List.filterMap_append, hm _ rfl]
  split <;> split <;> simp [hb, Mark.settled?]

def Event.isOther (e : Event) : Bool :=
  e.settled?.isNone

theorem Console.Adds.settled (h : Adds Event.isOther c d) :
    d.events.filterMap Event.settled? = c.events.filterMap Event.settled? := by
  obtain ⟨news, he, hn⟩ := h
  have hx : news.filterMap Event.settled? = [] :=
    List.filterMap_eq_nil_iff.2 fun e h => by simpa [Event.isOther] using hn e h
  rw [he, List.filterMap_append, hx, List.append_nil]

theorem Chronicled.leave (h : Chronicled c hs) (hl : Leaves c d) (ha : Adds Event.isOther c d) :
    Chronicled d hs :=
  ⟨h.orderly, h.matched, fun id => (h.stands id).told (hl id), by rw [h.settled, ha.settled]⟩

/-- The marks after a small step of an activity, which may end with it. -/
structure Pursued (d : Console) (h : List Mark) (id : TaskId) (pace : Pace) : Prop where
  orderly : Orderly h
  matched : Matched h
  others : ∀ j, j ≠ id → Stands h j (d.standing j)
  settled : h.filterMap Mark.settled? = d.events.filterMap Event.settled?
  own : match pace with
    | .resting | .moving => Stands h id (d.standing id)
    | .ended | .crashed => Stands h id .between
  born : d.standing id ≠ .unborn

theorem Pursued.goes_on (h : Pursued d hs id pace) (hp : pace = .resting ∨ pace = .moving) :
    Chronicled d hs := by
  refine ⟨h.orderly, h.matched, fun j => ?_, h.settled⟩
  by_cases hj : j = id
  · subst hj
    have ho := h.own
    rcases hp with rfl | rfl <;> exact ho
  · exact h.others j hj

theorem Pursued.stops (h : Pursued d hs id pace) (hp : pace = .ended ∨ pace = .crashed)
    (hl : ∀ j, j ≠ id → Told (d.standing j) (e.standing j))
    (hid : Told .between (e.standing id)) (ha : Adds Event.isOther d e) : Chronicled e hs := by
  refine ⟨h.orderly, h.matched, fun j => ?_, by rw [h.settled, ha.settled]⟩
  by_cases hj : j = id
  · subst hj
    have ho : Stands hs j .between := by
      have ho := h.own
      rcases hp with rfl | rfl <;> exact ho
    exact ho.told hid
  · exact (h.others j hj).told (hl j hj)

theorem Chronicled.reach (h : Chronicled c hs) (hb : c.standing id = .busy a) {rest : Program}
    (hp : a.program = s :: rest) : Reach hs id s a.wait := by
  have hr := h.stands id
  obtain ⟨program, index, wait⟩ := a
  subst hp
  rw [hb] at hr
  exact hr

structure Advanced (c d : Console) (hs new : List Mark) (id : TaskId) (a : Activity) (s : Statement)
    (stage : Stage) : Prop where
  noted : Noted hs new id s stage
  others : ∀ j, j ≠ id → Stands (hs ++ new) j (d.standing j)
  settled : (hs ++ new).filterMap Mark.settled? = d.events.filterMap Event.settled?
  busy : d.standing id = .busy a

theorem Chronicled.advance (h : Chronicled c hs) (hb : c.standing id = .busy a) {rest : Program}
    (hp : a.program = s :: rest) (he : c.perform id s a.wait = (d, stage)) :
    Advanced c d hs (c.activityMarks hs id a) id a s stage := by
  have hd := deed_of_perform he
  have hm : c.activityMarks hs id a = c.deedMarks (begun hs id) id s a.wait (d, stage) := by
    simp only [activityMarks, hp, he]
  have hn := hd.noted h.orderly h.matched (h.reach hb hp)
  obtain ⟨news, hnews, hdeeds⟩ := hd.adds
  rw [hm]
  refine ⟨hn, fun j hj => ?_, ?_, hd.standing_self hb⟩
  · exact ((h.stands j).append_ne hn.own hj).told (leaves_of_standing_eq hd.standing_eq j)
  · rw [List.filterMap_append, h.settled, hnews, List.filterMap_append,
      settled_deedMarks hnews hdeeds]

theorem Advanced.resume {new : List Mark} (h : Advanced c d hs new id a s stage)
    (ha : Adds Event.isOther d e) (hx : ∀ j, e.standing j = d.standing j) {b : Activity}
    (hb : Stands (hs ++ new) id (.busy b)) (hp : pace = .resting ∨ pace = .moving) :
    Pursued (e.setActivity id b) (hs ++ new) id pace := by
  have hstand := standing_setActivity ((hx id).trans h.busy) b
  refine ⟨h.noted.orderly, h.noted.matched, fun j hne => ?_, ?_, ?_, ?_⟩
  · rw [hstand, if_neg hne, hx]
    exact h.others j hne
  · rw [(ha.trans (adds_setActivity e id b)).settled]
    exact h.settled
  · rcases hp with rfl | rfl <;> simpa only [hstand, if_true] using hb
  · rw [hstand, if_pos rfl]
    exact nofun

theorem Stands.of_reach {rest : Program} (hp : a.program = s :: rest)
    (hr : Reach h id s a.wait) : Stands h id (.busy a) := by
  obtain ⟨program, index, wait⟩ := a
  subst hp
  exact hr

theorem Stands.of_fresh (hu : Upto h id (3 * begun h id)) (hw : a.wait = .fresh) :
    Stands h id (.busy a) := by
  obtain ⟨program, index, wait⟩ := a
  subst hw
  cases program with
  | nil => exact hu
  | cons s rest => exact .idle (.inr rfl) nofun hu

theorem Chronicled.pursuit (h : Chronicled c hs) (hb : c.standing id = .busy a)
    (hd : Pursuit c id a note d pace) (hn : ∀ o, (note o).isOther) :
    Pursued d (hs ++ c.activityMarks hs id a) id pace := by
  cases hd with
  | ended hp =>
    have hm : c.activityMarks hs id a = [] := by simp only [activityMarks, hp]
    rw [hm, List.append_nil]
    refine ⟨h.orderly, h.matched, fun j _ => h.stands j, h.settled, ?_, by rw [hb]; exact nofun⟩
    have hu := h.stands id
    obtain ⟨program, index, wait⟩ := a
    subst hp
    rw [hb] at hu
    exact hu
  | rested hp he =>
    have ha := h.advance hb hp he
    exact ha.resume (.same rfl) (fun _ => rfl) (.of_reach hp ha.noted.reach) (.inl rfl)
  | moved hp he =>
    have ha := h.advance hb hp he
    exact ha.resume (.same rfl) (fun _ => rfl) (.of_reach hp ha.noted.reach) (.inr rfl)
  | crashed hp he =>
    have ha := h.advance hb hp he
    exact ⟨ha.noted.orderly, ha.noted.matched, ha.others, ha.settled, ha.noted.reach,
      by rw [ha.busy]; exact nofun⟩
  | followed hp he hf =>
    have ha := h.advance hb hp he
    exact ha.resume (.same rfl) (fun _ => rfl) (.of_fresh ha.noted.reach rfl) (.inr rfl)
  | @finished _ _ d o hp he =>
    have ha := h.advance hb hp he
    have hnote : Adds Event.isOther d (d.record (note o)) := .record (.same rfl) (hn o)
    exact ha.resume hnote (fun _ => rfl) (.of_fresh ha.noted.reach rfl) (.inr rfl)

theorem isOther_of_isPrinters {e : Event} (h : e.isPrinters) : e.isOther := by
  cases e <;> first | rfl | cases h

theorem isOther_of_isWatches {e : Event} (h : e.isWatches) : e.isOther := by
  cases e <;> first | rfl | cases h

theorem isOther_of_isCalls {e : Event} (h : e.isCalls) : e.isOther := by
  cases e <;> first | rfl | cases h

theorem isOther_of_isStarts {e : Event} (h : e.isStarts) : e.isOther := by
  cases e <;> first | rfl | cases h

theorem marks_of_idle {x : Stride} (h : c.pursued? x = none) : c.marks hs x = [] := by
  rw [marks, h, Option.elim_none]

theorem Chronicled.producerTurn {n : Nat} {more : Bool} (h : Chronicled c hs)
    (hd : ProducerTurn c n d more) :
    Chronicled d (hs ++ c.marks hs (.move (.step (.producer n)))) := by
  have hm {a : Activity} (ha : c.activity? (.producer n) = some a) :
      c.marks hs (.move (.step (.producer n))) = c.activityMarks hs (.producer n) a := by
    simp [marks, pursued?, current?, standing_producer.2 ha]
  cases hd with
  | off ha =>
    have hn : c.current? (.producer n) = none := by
      unfold current?
      split
      · rename_i a hb
        rw [standing_producer.1 hb] at ha
        cases ha
      · rfl
    rw [marks_of_idle (pursued?_of_current? hn), List.append_nil]
    exact h
  | on ha hd hp =>
    rw [hm ha]
    exact (h.pursuit (standing_producer.2 ha) hd fun _ => rfl).goes_on hp
  | @quit a d pace ha hd hp =>
    rw [hm ha]
    have hd := h.pursuit (standing_producer.2 ha) hd fun _ => rfl
    refine hd.stops hp (fun j _ => leaves_endProducer d n j) ?_ (.same rfl)
    rw [standing_endProducer hd.born]
    exact .ended _

theorem Chronicled.stay (h : Chronicled c hs) {x : Stride} (hc : c.pursued? x = none)
    (hl : Leaves c d) (ha : Adds Event.isOther c d) : Chronicled d (hs ++ c.marks hs x) := by
  rw [marks_of_idle hc, List.append_nil]
  exact h.leave hl ha

theorem Chronicled.callTurn {v : Supervision} {r : Option Request} {more : Bool}
    (h : Chronicled c hs) (hb : c.standing .ticker = .busy a) (hd : CallTurn c v r a d more) :
    Chronicled d (hs ++ c.activityMarks hs .ticker a) := by
  cases hd with
  | on hd hp => exact (h.pursuit hb hd fun _ => rfl).goes_on hp
  | @ended d hd =>
    have hp := h.pursuit hb hd fun _ => rfl
    have ha : Adds Event.isOther d (d.record (.call v.job r (v.tally.number r) .ended)) :=
      .record (.same rfl) rfl
    refine hp.stops (.inl rfl) (fun j hj => ?_) ?_ (ha.trans (.same rfl))
    · rw [standing_pause_ne _ hj]
      exact .same _
    · rw [standing_pause (c := d.record _) hp.born]
      exact .same _
  | @crashed d hd =>
    have hp := h.pursuit hb hd fun _ => rfl
    have ha : Adds Event.isOther d (d.record (.call v.job r (v.tally.number r) .crashed)) :=
      .record (.same rfl) rfl
    have hr := (adds_recover (d.record (.call v.job r (v.tally.number r) .crashed)) v r).mono
      fun _ => isOther_of_isCalls
    refine hp.stops (.inr rfl) (fun j hj => ?_) ?_ (ha.trans (hr.trans (.same rfl)))
    · rw [standing_pause_ne _ hj, standing_recover]
      exact .same _
    · have hb := hp.born
      rw [standing_pause (by rw [standing_recover]; exact hb)]
      exact .same _

theorem Chronicled.tickerTurn {more : Bool} (h : Chronicled c hs) (hd : TickerTurn c d more) :
    Chronicled d (hs ++ c.marks hs (.move (.step .ticker))) := by
  have hidle (hk : c.activity? .ticker = none) : c.pursued? (.move (.step .ticker)) = none := by
    refine pursued?_of_current? ?_
    unfold current?
    split
    · rename_i a hb
      rw [activity?_of_standing hb] at hk
      cases hk
    · rfl
  have hcall {v : Supervision} {r : Option Request} {a : Activity} {e : Console} {more : Bool}
      (hs' : c.supervision = some v) (hk : c.ticker = .calling r a) (ht : c.terminated = false)
      (he : CallTurn c v r a e more) :
      Chronicled e (hs ++ c.marks hs (.move (.step .ticker))) := by
    have hb := standing_calling hs' hk
    have hm : c.marks hs (.move (.step .ticker)) = c.activityMarks hs .ticker a := by
      simp [marks, pursued?, current?, hb, ht]
    rw [hm]
    exact h.callTurn hb he
  cases hd with
  | off hoff =>
    refine h.stay ?_ (.same rfl rfl rfl) (.same rfl)
    rcases hoff with hs | hk
    · exact pursued?_of_current? (by simp [current?, standing, hs])
    · exact hidle (by simp [activity?, hk, Ticker.activity?])
  | @stop s hs hk ht =>
    refine h.stay ?_ (leaves_stopTicker c s) ?_
    · refine pursued?_of_current? ?_
      unfold current?
      split
      · exact if_pos ⟨rfl, ht⟩
      · rfl
    · have hw : Adds Event.isOther c { c.withdraw .ticker with ticker := .absent } := .same rfl
      exact (hw.record (x := .logged (.stopped (c.job s.job).name)) rfl).trans (.same rfl)
  | @call s hs hk ht =>
    refine h.stay (hidle (by simp [activity?, hk, Ticker.activity?])) (leaves_beginCall hs hk) ?_
    exact (adds_beginCall c s).mono fun _ => isOther_of_isCalls
  | on hs hk ht hd hp => exact hcall hs hk ht (.on hd hp)
  | ended hs hk ht hd => exact hcall hs hk ht (.ended hd)
  | crashed hs hk ht hd => exact hcall hs hk ht (.crashed hd)
  | @due deadline hk ht =>
    refine h.stay (hidle (by simp [activity?, hk, Ticker.activity?])) (.of_eq fun j => ?_)
      (.same rfl)
    cases j with
    | ticker => cases hs : c.supervision <;> simp [standing, hk, hs]
    | _ => rfl
  | asleep hk ht =>
    exact h.stay (hidle (by simp [activity?, hk, Ticker.activity?])) (.same rfl rfl rfl) (.same rfl)

theorem Chronicled.turn (h : Chronicled c hs) (id : TaskId) :
    Chronicled (c.turn id).1 (hs ++ c.marks hs (.move (.step id))) := by
  cases id with
  | printer =>
    have hd := printerTurn_cases c
    exact h.stay rfl hd.leaves (hd.adds.mono fun _ => isOther_of_isPrinters)
  | signalWatch =>
    have hd := signalWatchTurn_cases c
    exact h.stay rfl hd.leaves (hd.adds.mono fun _ => isOther_of_isWatches)
  | keywordWatch =>
    have hd := keywordWatchTurn_cases c
    exact h.stay rfl hd.leaves (hd.adds.mono fun _ => isOther_of_isWatches)
  | ticker => exact h.tickerTurn (tickerTurn_cases c)
  | producer n => exact h.producerTurn (producerTurn_cases c n)

theorem Chronicled.act (h : Chronicled c hs) (m : Move) :
    Chronicled (c.act m) (hs ++ c.marks hs (.move m)) := by
  have quiet {d : Console} (hl : Leaves c d) (ha : Adds Event.isOther c d) :
      Chronicled d (hs ++ []) := by
    rw [List.append_nil]
    exact h.leave hl ha
  cases m with
  | step id =>
    obtain ⟨ready, he⟩ := c.turn_eq_step id
    rw [Console.act, he]
    exact (h.turn id).leave (.same rfl rfl rfl) (.same rfl)
  | spawn p => exact quiet (leaves_spawn c p) (.same rfl)
  | kill n =>
    refine quiet (d := c.kill n) ?_ ?_ <;> unfold Console.kill <;> split
    · exact .same rfl rfl rfl
    · exact .trans (.same rfl rfl rfl) (leaves_endProducer (c.withdraw (.producer n)) n)
    · exact .same rfl
    · exact .same rfl
  | raise s =>
    refine quiet (d := c.raise s) ?_ ?_ <;> unfold Console.raise <;> split
    · exact .same rfl rfl rfl
    · exact .same rfl rfl rfl
    · exact .same rfl
    · exact .same rfl
  | setSink s => exact quiet (.same rfl rfl rfl) (.record (x := .sinkChanged s) (.same rfl) rfl)
  | start k interactive =>
    have hd := c.supervise_cases k interactive
    have ha : Adds Event.isOther c (c.supervise k interactive).1 :=
      hd.adds.mono fun _ => isOther_of_isStarts
    exact quiet ((leaves_of_standing_eq hd.standing_eq).trans (.same rfl rfl rfl)) (ha.record rfl)
  | pass time => exact quiet (.same rfl rfl rfl) (.same rfl)
  | feed piece => exact quiet (.same rfl rfl rfl) (.same rfl)
  | close => exact quiet (.same rfl rfl rfl) (.same rfl)
  | deafen cause => exact quiet (.same rfl rfl rfl) (.same rfl)
  | release => exact quiet (.same rfl rfl rfl) (.same rfl)

theorem Chronicled.work (h : Chronicled c hs) (hi : id ∈ watchers) :
    Chronicled (c.work id) (hs ++ c.marks hs (.work id)) := by
  rcases c.work_cases id with ⟨v, r, a, rfl, hv, hk, he⟩ | ⟨hn, he⟩ <;> rw [he]
  · have hm : c.marks hs (.work .ticker) = c.activityMarks hs .ticker a := by
      rw [marks, pursued?_calling hv hk]
      rfl
    rw [hm]
    exact h.callTurn (standing_calling hv hk) (callTurn_cases c v r a)
  · -- Between two calls the turn makes no marks, so it does not matter what it looks at.
    have hopen : Chronicled { c with terminated := false } hs :=
      h.leave (.same rfl rfl rfl) (.same rfl)
    have hidle : pursued? { c with terminated := false } (.move (.step id)) = none := by
      have hwork : pursued? { c with terminated := false } (.work id) = none :=
        pursued?_eq_none (c := { c with terminated := false }) hi hn
      cases hb : pursued? { c with terminated := false } (.move (.step id)) with
      | none => rfl
      | some p =>
        obtain ⟨i, b⟩ := p
        have hbusy := busy_of_pursued? hb
        obtain ⟨a, -, he⟩ := Option.map_eq_some_iff.1 hb
        cases he
        rw [pursued?, Standing.activity?_eq_some.2 hbusy] at hwork
        cases hwork
    have ht := hopen.turn id
    rw [marks_of_idle hidle, List.append_nil] at ht
    rw [marks_of_idle (pursued?_eq_none hi hn), List.append_nil]
    exact ht.leave (.same rfl rfl rfl) (.same rfl)

theorem Chronicled.start {settings : Settings} {jobs : List Job} {source : Source} {sink : Sink}
    (h₀ : new? settings jobs source sink = some c) : Chronicled c [] := by
  obtain ⟨-, rfl⟩ := new?_eq_some.1 h₀
  refine ⟨.nil, nofun, fun id => ?_, rfl⟩
  cases id with
  | producer n => exact nofun
  | ticker => exact nofun
  | _ => trivial

theorem Console.Course.chronicled {c₀ : Console} {xs : List Stride} (h₀ : Chronicled c₀ [])
    (h : Course c₀ xs c) : (c₀.chronicle xs).1 = c ∧ Chronicled c (c₀.chronicle xs).2 := by
  induction h with
  | start => exact ⟨rfl, h₀⟩
  | next x _ hx ih =>
    obtain ⟨he, hc⟩ := ih
    rw [chronicle_concat, he]
    cases x with
    | move m => exact ⟨rfl, hc.act m⟩
    | work id =>
      simp only [permits, Bool.and_eq_true, decide_eq_true_eq] at hx
      exact ⟨rfl, hc.work hx.1.1⟩

/-! What orderly marks say about the calls. -/

def sent (h : List Mark) : List (Call × Message) :=
  h.filterMap Mark.accepted?

theorem mem_sent {k : Call} {m : Message} : (k, m) ∈ sent h ↔ .accepted k m ∈ h := by
  refine ⟨fun hm => ?_, fun hm => List.mem_filterMap.2 ⟨_, hm, rfl⟩⟩
  obtain ⟨x, hx, he⟩ := List.mem_filterMap.1 hm
  cases x with
  | accepted k' m' =>
    cases he
    exact hx
  | _ => cases he

theorem sent_sublist {a b : Call} {m₁ m₂ : Message}
    (hs : [.accepted a m₁, .accepted b m₂].Sublist h) : [(a, m₁), (b, m₂)].Sublist (sent h) :=
  hs.filterMap Mark.accepted?

theorem Orderly.lt_of_append {xs ys : List Mark} (ho : Orderly (xs ++ ys)) {x y : Mark}
    (hx : x ∈ xs) (hy : y ∈ ys) (ht : x.call.task = y.call.task) : x.rank < y.rank :=
  (List.pairwise_append.1 ho).2.2 x hx y hy ht

theorem Orderly.sublist_of_lt (ho : Orderly h) {x y : Mark} (hx : x ∈ h) (hy : y ∈ h)
    (ht : x.call.task = y.call.task) (hr : x.rank < y.rank) : [x, y].Sublist h := by
  obtain ⟨s, t, rfl⟩ := List.append_of_mem hx
  have hy : y ∈ x :: t := by
    apply (List.mem_append.1 hy).resolve_left
    intro hs
    exact Nat.lt_asymm hr (ho.lt_of_append hs List.mem_cons_self ht.symm)
  have hy : y ∈ t := by
    apply (List.mem_cons.1 hy).resolve_left
    intro he
    subst he
    exact Nat.lt_irrefl _ hr
  exact ((List.singleton_sublist.2 hy).cons_cons x).trans (List.sublist_append_right s _)

/-- Of two calls one of which returned before the other began, the former is accepted first. -/
theorem Orderly.real_time (ho : Orderly h) {a b : Call} {m m₁ m₂ : Message}
    (hab : [.returned a, .began b m].Sublist h) (ha : (a, m₁) ∈ sent h) (hb : (b, m₂) ∈ sent h) :
    [(a, m₁), (b, m₂)].Sublist (sent h) := by
  obtain ⟨xs, ys, rfl, hra, hbb⟩ := List.cons_sublist_iff.1 hab
  have hbb := List.singleton_sublist.1 hbb
  have ha : .accepted a m₁ ∈ xs := by
    apply (List.mem_append.1 (mem_sent.1 ha)).resolve_right
    intro hy
    have hlt := ho.lt_of_append hra hy rfl
    simp only [Mark.rank] at hlt
    omega
  have hb : .accepted b m₂ ∈ ys := by
    apply (List.mem_append.1 (mem_sent.1 hb)).resolve_left
    intro hx
    have hlt := ho.lt_of_append hx hbb rfl
    simp only [Mark.rank] at hlt
    omega
  exact sent_sublist ((List.singleton_sublist.2 ha).append (List.singleton_sublist.2 hb))

theorem Orderly.program_order (ho : Orderly h) {a b : Call} {m₁ m₂ : Message}
    (ht : a.task = b.task) (hlt : a.number < b.number) (ha : (a, m₁) ∈ sent h)
    (hb : (b, m₂) ∈ sent h) : [(a, m₁), (b, m₂)].Sublist (sent h) := by
  refine sent_sublist (ho.sublist_of_lt (mem_sent.1 ha) (mem_sent.1 hb) ht ?_)
  simp only [Mark.rank]
  omega

theorem Orderly.sent_nodup (ho : Orderly h) : ((sent h).map Prod.fst).Nodup := by
  unfold sent
  rw [List.Nodup, List.pairwise_map, List.pairwise_filterMap]
  refine ho.imp fun {x y} hxy p hp q hq he => ?_
  cases x <;> cases hp
  cases y <;> cases hq
  subst he
  exact Nat.lt_irrefl _ (hxy rfl)

theorem Orderly.eq_of_rank_eq (ho : Orderly h) {x y : Mark} (hx : x ∈ h) (hy : y ∈ h)
    (ht : x.call.task = y.call.task) (hr : x.rank = y.rank) : x = y := by
  obtain ⟨s, t, rfl⟩ := List.append_of_mem hx
  rcases List.mem_append.1 hy with hs | ht'
  · have hlt := ho.lt_of_append hs List.mem_cons_self ht.symm
    omega
  · refine ((List.mem_cons.1 ht').resolve_right fun hyt => ?_).symm
    have hlt := (List.pairwise_cons.1 (List.pairwise_append.1 ho).2.1).1 y hyt ht
    omega

theorem Orderly.not_sent_of_refused (ho : Orderly h) {k : Call} {m : Message}
    (hr : .refused k m ∈ h) : k ∉ (sent h).map Prod.fst := by
  intro hk
  obtain ⟨⟨k', m'⟩, hm, rfl⟩ := List.mem_map.1 hk
  cases ho.eq_of_rank_eq hr (mem_sent.1 hm) rfl rfl

theorem sent_messages (h : List Mark) : (sent h).map Prod.snd =
    (h.filterMap Mark.settled?).filterMap fun p => if p.2.2 then some p.2.1 else none := by
  unfold sent
  rw [List.map_filterMap, List.filterMap_filterMap]
  apply List.filterMap_congr
  intro x _
  cases x <;> rfl

theorem accepted_messages (es : List Event) : es.filterMap Event.accepted? =
    (es.filterMap Event.settled?).filterMap fun p => if p.2.2 then some p.2.1 else none := by
  rw [List.filterMap_filterMap]
  apply List.filterMap_congr
  intro x _
  cases x <;> rfl

def Print.message? : Print → Option Message
  | .message m => some m
  | .sink _ => none

theorem handled_of_prints (c : Console) : c.prints.filterMap Print.message? = c.handled := by
  unfold prints handled
  rw [List.filterMap_filterMap]
  apply List.filterMap_congr
  intro x _
  cases x <;> rfl

structure InOrder (d₀ : Display) (c : Console) (h : List Mark) : Prop where
  handled : c.handled <+: (sent h).map Prod.snd
  /-- An accepted message is in one of three places. -/
  places : (sent h).map Prod.snd = c.handled ++ c.discarded ++ c.mailbox.items
  closed : if c.mailbox.closed then c.mailbox.items = [] else c.discarded = []
  /-- A call has one message accepted at most, and this is its own. -/
  once : ((sent h).map Prod.fst).Nodup
  own : ∀ k m, (k, m) ∈ sent h → .began k m ∈ h
  settled : h.filterMap Mark.settled? = c.events.filterMap Event.settled?
  refused : ∀ k m, .refused k m ∈ h → k ∉ (sent h).map Prod.fst
  output : c.output = d₀.transcript c.prints
  prints : c.prints.filterMap Print.message? = c.handled
  real_time : ∀ a b m m₁ m₂, [.returned a, .began b m].Sublist h → (a, m₁) ∈ sent h →
    (b, m₂) ∈ sent h → [(a, m₁), (b, m₂)].Sublist (sent h)
  program_order : ∀ a b m₁ m₂, a.task = b.task → a.number < b.number → (a, m₁) ∈ sent h →
    (b, m₂) ∈ sent h → [(a, m₁), (b, m₂)].Sublist (sent h)

theorem inOrder_of_course {settings : Settings} {jobs : List Job} {source : Source} {sink : Sink}
    {c₀ c : Console} {xs : List Stride} (h₀ : new? settings jobs source sink = some c₀)
    (h : Course c₀ xs c) : InOrder { sink } c (c₀.chronicle xs).2 := by
  obtain ⟨-, hc⟩ := h.chronicled (.start h₀)
  have hm := h.mail h₀
  have hs : Staged c := (h.attainable (.new h₀)).staged
  have hsent : (sent (c₀.chronicle xs).2).map Prod.snd =
      c.handled ++ c.discarded ++ c.mailbox.items := by
    rw [sent_messages, hc.settled, ← accepted_messages]
    exact hm.sent
  refine ⟨?_, hsent, ?_, hc.orderly.sent_nodup, fun k m hk => hc.matched k m (mem_sent.1 hk),
    hc.settled, fun k m => hc.orderly.not_sent_of_refused, ?_, handled_of_prints c,
    fun a b m m₁ m₂ => hc.orderly.real_time, fun a b m₁ m₂ => hc.orderly.program_order⟩
  · rw [hsent, List.append_assoc]
    exact List.prefix_append _ _
  · split
    · rename_i hclosed
      exact (hs.isShut hclosed).items
    · rename_i hopen
      exact hm.kept (by simpa using hopen)
  · rw [output_eq]
    exact hm.output

def crowded : List Stride :=
  ([.spawn [.info "a"], .spawn [.info "b", .info "c"], .step (.producer 0), .step (.producer 1),
    .step .printer, .step (.producer 1), .step (.producer 1), .kill 1] : List Move).map .move

theorem inOrder_of_crowded : ∃ c₀, new? { mailboxCapacity := 1 } [] {} {} = some c₀ ∧
    (c₀.follow crowded).handled = [.info "a"] ∧ (c₀.follow crowded).mailbox.items = [.info "b"] ∧
      InOrder {} (c₀.follow crowded) (c₀.chronicle crowded).2 :=
  ⟨_, rfl, by decide, by decide,
    @inOrder_of_course { mailboxCapacity := 1 } [] {} {} _ _ crowded rfl (.of_lawful (by decide))⟩

end JobConsole
