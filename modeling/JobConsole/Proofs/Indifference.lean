import JobConsole.Proofs.Intake
import JobConsole.Proofs.Modesty
import JobConsole.Proofs.Removal

namespace JobConsole

namespace Stride

def isExchange : Stride → Bool
  | move (.setSink _) => true
  | _ => false

def isModest : Stride → Bool
  | move (.spawn p) => Program.isModest p
  | _ => true

end Stride

/-- Some strides without the exchanges of the terminal. -/
def script (xs : List Stride) : List Stride :=
  xs.filter fun x => !x.isExchange

namespace Event

def outcome? : Event → Option (Option TaskId × Outcome)
  | finished n _ o => some (some (.producer n), o)
  | call _ _ _ (.finished o) => some (some .ticker, o)
  | hostStarted _ first => some (none, .started first)
  | _ => none

end Event

namespace Console

/-- Nothing but the terminal, and what was noted of it, is different. -/
structure Indifferent (c d : Console) : Prop where
  rest : d = { c with display := d.display, journal := d.journal }
  journal : (d.journal.filter fun e => !e.event.isTerminals) =
    c.journal.filter fun e => !e.event.isTerminals
  hooks : d.seen Event.hooked? = c.seen Event.hooked?
  outcomes : d.seen Event.outcome? = c.seen Event.outcome?
  calls : d.seen Event.called? = c.seen Event.called?
  reads : d.seen Event.read? = c.seen Event.read?

variable {c₀ d₀ c d : Console} {x : Stride} {xs ys : List Stride}

/-! What can be told from an unplugged console. -/

theorem seen_unplug {α : Type} {f : Event → Option α}
    (hf : ∀ e : Event, e.isTerminals = true → f e = none) (c : Console) :
    c.unplug.seen f = c.seen f := by
  have hl (es : List Entry) : (es.filter fun e => !e.event.isTerminals).filterMap
      (fun e => (f e.event).map (e.time, ·)) =
        es.filterMap fun e => (f e.event).map (e.time, ·) := by
    induction es with
    | nil => rfl
    | cons e es ih =>
      cases he : e.event.isTerminals with
      | true => simp [he, ih, hf _ he]
      | false => simp [he, ih, List.filterMap_cons]
  unfold seen
  rw [List.filterMap_reverse, List.filterMap_reverse]
  exact congrArg List.reverse (hl c.journal)

theorem indifferent_of_unplug (h : d.unplug = c.unplug) : Indifferent c d := by
  have hseen {α : Type} {f : Event → Option α}
      (hf : ∀ e : Event, e.isTerminals = true → f e = none) : d.seen f = c.seen f := by
    rw [← seen_unplug hf d, h, seen_unplug hf c]
  have hnone {α : Type} {f : Event → Option α} (hw : ∀ b, f (.wrote b) = none)
      (hl : f .flushed = none) (hs : ∀ s, f (.sinkChanged s) = none)
      (hd : ∀ x, f (.logged x) = none) (e : Event) (he : e.isTerminals = true) : f e = none := by
    cases e with
    | wrote b => exact hw b
    | flushed => exact hl
    | sinkChanged s => exact hs s
    | logged x => exact hd x
    | _ => cases he
  refine ⟨?_, congrArg journal h, hseen ?_, hseen ?_, hseen ?_, hseen ?_⟩
  · have hr := congrArg (fun e : Console => { e with display := d.display, journal := d.journal }) h
    exact hr
  all_goals exact hnone (fun _ => rfl) rfl (fun _ => rfl) fun _ => rfl

/-! Both runs side by side. -/

theorem Modest.stride (h : c.Modest) (hx : x.isModest = true) : (c.stride x).Modest := by
  cases x with
  | work id => exact h.work id
  | move m => exact h.act m fun p hp => by subst hp; exact hx

theorem unplug_exchange (h : x.isExchange = true) (c : Console) :
    c.permits x = true ∧ (c.stride x).unplug = c.unplug := by
  cases x with
  | work id => cases h
  | move m =>
    cases m with
    | setSink s => exact ⟨rfl, unplug_noise (c := { c with display.sink := s }) rfl⟩
    | _ => cases h

theorem permits_of_unplug (h : d.unplug = c.unplug) (x : Stride) : d.permits x = c.permits x := by
  rw [← permits_unplug d, h, permits_unplug c]

theorem unplug_stride_of_unplug (h : d.unplug = c.unplug) (hc : c.Modest) (hd : d.Modest)
    (hx : c.permits x = true) : (d.stride x).unplug = (c.stride x).unplug := by
  have hdx : d.permits x = true := (permits_of_unplug h x).trans hx
  rw [unplug_stride hd.legible hdx, h, ← unplug_stride hc.legible hx]

theorem follow_script (h : d.unplug = c.unplug) (hc : c.Modest) (hd : d.Modest)
    (hxs : ∀ x ∈ xs, x.isModest = true) : d.lawful (script xs) = c.lawful xs ∧
      (c.lawful xs = true → (d.follow (script xs)).unplug = (c.follow xs).unplug) := by
  induction xs generalizing c d with
  | nil => exact ⟨rfl, fun _ => h⟩
  | cons x xs ih =>
    obtain ⟨hx, hxs⟩ := List.forall_mem_cons.1 hxs
    cases he : x.isExchange with
    | true =>
      obtain ⟨hp, hm⟩ := unplug_exchange he c
      have hs : script (x :: xs) = script xs := List.filter_cons_of_neg (by simp [he])
      rw [hs, lawful, hp, Bool.true_and]
      exact ih (h.trans hm.symm) (hc.stride hx) hd hxs
    | false =>
      have hs : script (x :: xs) = x :: script xs := List.filter_cons_of_pos (by simp [he])
      rw [hs, lawful, lawful, permits_of_unplug h]
      cases hp : c.permits x with
      | false => exact ⟨rfl, by simp⟩
      | true => exact ih (unplug_stride_of_unplug h hc hd hp) (hc.stride hx) (hd.stride hx) hxs

theorem lawful_concat (c : Console) (xs : List Stride) (x : Stride) :
    c.lawful (xs ++ [x]) = (c.lawful xs && (c.follow xs).permits x) := by
  induction xs generalizing c with
  | nil => exact Bool.and_true _
  | cons y xs ih =>
    rw [List.cons_append, lawful, lawful, ih, Bool.and_assoc]
    rfl

theorem Course.lawful (h : Course c₀ xs c) : c₀.lawful xs = true := by
  induction h with
  | start => rfl
  | next x h hx ih => rw [lawful_concat, ih, ← h.eq_follow, hx, Bool.true_and]

theorem isModest_of_script (h : script ys = script xs) (hxs : ∀ x ∈ xs, x.isModest = true) :
    ∀ y ∈ ys, y.isModest = true := by
  intro y hy
  cases he : y.isExchange with
  | true =>
    cases y with
    | work id => rfl
    | move m => cases m <;> first | rfl | cases he
  | false =>
    have hm : y ∈ script ys := List.mem_filter.2 ⟨hy, by rw [he]; rfl⟩
    rw [h] at hm
    exact hxs y (List.mem_filter.1 hm).1

theorem follow_of_script (h : d.unplug = c.unplug) (hc : c.Modest) (hd : d.Modest)
    (hs : script ys = script xs) (hxs : ∀ x ∈ xs, x.isModest = true) (hl : c.lawful xs = true) :
    d.lawful ys = true ∧ (d.follow ys).unplug = (c.follow xs).unplug := by
  obtain ⟨hlx, hmx⟩ := follow_script h hc hd hxs
  obtain ⟨hly, hmy⟩ := follow_script rfl hd hd (isModest_of_script hs hxs)
  rw [hs] at hly hmy
  have hdl : d.lawful ys = true := by rw [← hly, hlx, hl]
  exact ⟨hdl, (hmy hdl).symm.trans (hmx hl)⟩

theorem modest_of_new? {settings : Settings} {jobs : List Job} {source : Source} {sink : Sink}
    (h₀ : new? settings jobs source sink = some c₀) (hj : ∀ j ∈ jobs, j.IsModest) : c₀.Modest := by
  obtain ⟨-, rfl⟩ := new?_eq_some.1 h₀
  refine ⟨hj, fun id a ha => ?_, nofun, Nat.zero_le _⟩
  cases id <;> cases ha

/-- The same script goes the same way with any other terminal, and with one that never fails. -/
theorem indifferent_of_course {settings : Settings} {jobs : List Job} {source : Source}
    {sink : Sink} (h₀ : new? settings jobs source sink = some c₀) (h : Course c₀ xs c)
    (hj : ∀ j ∈ jobs, j.IsModest) (hxs : ∀ x ∈ xs, x.isModest = true) (sink' : Sink)
    (ys : List Stride) (hs : script ys = script xs) : ∃ d₀ d,
      new? settings jobs source sink' = some d₀ ∧ Course d₀ ys d ∧ Indifferent c d := by
  obtain ⟨hcap, hc₀⟩ := new?_eq_some.1 h₀
  obtain ⟨d₀, hd₀⟩ : ∃ d₀, new? settings jobs source sink' = some d₀ :=
    ⟨_, new?_eq_some.2 ⟨hcap, rfl⟩⟩
  have hm : d₀.unplug = c₀.unplug := by
    rw [(new?_eq_some.1 hd₀).2, hc₀]
    rfl
  obtain ⟨hl, hf⟩ := follow_of_script hm (modest_of_new? h₀ hj) (modest_of_new? hd₀ hj) hs hxs
    h.lawful
  rw [← h.eq_follow] at hf
  exact ⟨d₀, _, hd₀, .of_lawful hl, indifferent_of_unplug hf⟩

def steady : Job where
  name := "job"
  report _ := [.progress "fifty percent", .sleep 5]
  cancel _ := [.info "cancelled"]

def flickering : List Stride :=
  [.move (.spawn [.start 0 true, .info "hello", .prompt "sure?", .exit "bye" ⟨3⟩]),
    .move (.step (.producer 0)), .move (.step .ticker), .move (.step .ticker),
    .move (.step (.producer 0)), .move (.step (.producer 0)), .move (.step .printer),
    .move (.step .printer), .move (.setSink { failFlush := true }), .move (.step .printer),
    .move (.feed (.bytes [0x79, 0x0A])), .move (.step .printer), .move (.step (.producer 0)),
    .move (.step (.producer 0)), .move (.step .printer), .move (.step .printer), .work .ticker]

theorem indifferent_of_flickering : ∃ c₀ c d₀ d,
    new? {} [steady] {} { budget := some 2 } = some c₀ ∧ Course c₀ flickering c ∧
      new? {} [steady] {} {} = some d₀ ∧ Course d₀ (script flickering) d ∧
        c.terminated = true ∧ c.output ≠ d.output ∧ Indifferent c d := by
  obtain ⟨c₀, h₀, hl⟩ : ∃ c₀, new? {} [steady] {} { budget := some 2 } = some c₀ ∧
      c₀.lawful flickering := ⟨_, rfl, by decide⟩
  have h : Course c₀ flickering (c₀.follow flickering) := .of_lawful hl
  have hj : ∀ j ∈ [steady], j.IsModest := by
    intro j hj t request
    rw [List.mem_singleton.1 hj]
    cases request <;> rfl
  have hs : script (script flickering) = script flickering := by simp [script]
  obtain ⟨d₀, d, hd₀, hd, hi⟩ := indifferent_of_course h₀ h hj (by decide) {} _ hs
  refine ⟨c₀, _, d₀, d, h₀, h, hd₀, hd, ?_, ?_, hi⟩
  · cases h₀
    rfl
  · rw [hd.eq_follow]
    cases h₀
    cases hd₀
    decide

end Console

end JobConsole
