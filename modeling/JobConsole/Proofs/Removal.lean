import JobConsole.Proofs.Parallel

namespace JobConsole

def Event.isHosts : Event → Bool
  | hostStarted .. => true
  | _ => false

namespace Pruning

variable (q : Pruning) (c : Console)

def stride : Stride → Stride
  | .move (.spawn p) =>
    .move (.spawn (without (fun i => q (.producer c.producers.length i)) 0 p))
  | x => x

def omits : Stride → Bool
  | .move (.start ..) => q (.host (c.events.countP Event.isHosts))
  | x => (c.pursued? x).any fun p => p.2.attempt?.isSome && c.cuts q p.1 p.2.index

def remainder (c : Console) : List Stride → List Stride
  | [] => []
  | x :: xs => (if q.omits c x then [] else [q.stride c x]) ++ remainder (c.stride x) xs

def spared (c : Console) : List Stride → List Attempt
  | [] => []
  | x :: xs => (if q.omits c x then [] else (c.attempted? x).toList) ++ spared (c.stride x) xs

/-- All attempts that are taken out come after the first attempt. -/
def Late (c₀ : Console) (xs : List Stride) : Prop :=
  ∀ older x newer, xs = older ++ x :: newer → q.omits (c₀.follow older) x →
    c₀.tried older ≠ []

end Pruning

open Console

variable {q : Pruning} {c₀ c d : Console} {xs : List Stride} {x : Stride} {id : TaskId}
  {a b : Activity}

theorem Pruning.remainder_append (q : Pruning) (c : Console) (xs ys : List Stride) :
    q.remainder c (xs ++ ys) = q.remainder c xs ++ q.remainder (c.follow xs) ys := by
  induction xs generalizing c with
  | nil => rfl
  | cons x xs ih =>
    rw [List.cons_append, remainder, remainder, ih, List.append_assoc]
    rfl

theorem Pruning.spared_append (q : Pruning) (c : Console) (xs ys : List Stride) :
    q.spared c (xs ++ ys) = q.spared c xs ++ q.spared (c.follow xs) ys := by
  induction xs generalizing c with
  | nil => rfl
  | cons x xs ih =>
    rw [List.cons_append, spared, spared, ih, List.append_assoc]
    rfl

theorem Pruning.omits_eq (h : c.pursued? x = some (id, a)) :
    q.omits c x = (a.attempt?.isSome && c.cuts q id a.index) := by
  unfold omits
  split
  · cases h
  · rw [h]
    rfl

theorem keeps_of_omits (h : c.Attainable) (hx : q.omits c x = false)
    (hp : c.pursued? x = some (id, a)) : Keeps (c.cuts q id) a := by
  intro s rest hs
  have hsuits : Suits s a.wait := h.suits (busy_of_pursued? hp) hs
  rw [Pruning.omits_eq hp] at hx
  cases hst : s.starts with
  | false => rfl
  | true =>
    cases s with
    | start k interactive =>
      have ha : a.attempt? = some ⟨k, interactive⟩ := by
        generalize hw : a.wait = w at hsuits
        cases hsuits with
        | fresh => simp [Activity.attempt?, hs, hw]
        | room hm => cases hm
        | reply hs => cases hs
        | replied hs => cases hs
        | hungUp hs => cases hs
        | termination hs => cases hs
        | alarm hs => cases hs
        | forever hs => cases hs
      rw [ha] at hx
      simpa using hx
    | _ => cases hst

theorem Console.setActivity_self (h : c.activity? id = some a) : c.setActivity id a = c := by
  cases id with
  | producer n =>
    have hn : c.producers[n]? = some (some a) := Option.join_eq_some_iff.1 h
    have hset : c.producers.set n (some a) = c.producers := by
      refine List.ext_getElem? fun m => ?_
      rw [List.getElem?_set]
      split
      · rename_i he
        subst he
        rw [hn, if_pos (List.getElem?_eq_some_iff.1 hn).1]
      · rfl
    rw [setActivity, hset]
  | ticker =>
    have ht : c.ticker.setActivity a = c.ticker := by
      simp only [activity?] at h
      cases hc : c.ticker with
      | calling request b =>
        rw [hc] at h
        cases h
        rfl
      | _ => rfl
    rw [setActivity, ht]
  | _ => rfl

theorem Console.activity?_standing (c : Console) (id : TaskId) : (c.standing id).activity? =
    if id = .ticker ∧ c.supervision = none then none else c.activity? id := by
  cases id with
  | producer n =>
    simp only [standing, activity?]
    cases c.producers[n]? with
    | none => rfl
    | some x => cases x <;> rfl
  | ticker =>
    simp only [standing, activity?]
    cases c.supervision with
    | none => rfl
    | some v => cases c.ticker <;> rfl
  | _ => rfl

theorem Console.current?_eq (c : Console) (id : TaskId) :
    c.current? id = if id = .ticker ∧ c.terminated then none else (c.standing id).activity? := by
  unfold current?
  cases c.standing id with
  | busy a => rfl
  | _ => simp [Standing.activity?]

theorem Trims.attempt?_eq {f : Nat → Bool} (h : Trims f a b) (hk : Keeps f a) :
    b.attempt? = a.attempt? := by
  unfold Activity.attempt?
  rw [h.wait, h.program]
  cases hp : a.program with
  | nil => rfl
  | cons s rest =>
    rw [without_keep (hk s rest hp)]
    cases s with
    | start k interactive => cases a.wait <;> rfl
    | _ => rfl

/-! Strides that are left. -/

namespace Pruned

theorem kill (h : Pruned q c d) (n : Nat) : Pruned q (c.kill n) (d.kill n) := by
  unfold Console.kill
  generalize c.activity? (.producer n) = x, d.activity? (.producer n) = y,
    h.activity? (.producer n) = hxy
  cases hxy with
  | none => exact h
  | some => exact (h.withdraw _).endProducer n

theorem raise (h : Pruned q c d) (s : Signal) : Pruned q (c.raise s) (d.raise s) := by
  have hw : d.signalWatch = c.signalWatch := by rw [h.rest]; rfl
  have hset (w : SignalWatch) : Pruned q { c with signalWatch := w } { d with signalWatch := w } :=
    h.aside (fun e => { e with signalWatch := w }) fun _ _ _ _ _ => ⟨rfl, rfl⟩
  unfold Console.raise
  rw [hw]
  cases c.signalWatch with
  | listening pending => exact (hset _).wake _
  | _ => exact h

theorem spawn (h : Pruned q c d) (p : Program) : Pruned q (c.spawn p)
    (d.spawn (without (fun i => q (.producer c.producers.length i)) 0 p)) := by
  have hl := h.length_producers
  unfold Console.spawn
  rw [hl]
  refine wake (c := { c with producers := c.producers ++ [some { program := p }] })
    (d := { d with producers := d.producers ++ [some
      { program := without (fun i => q (.producer c.producers.length i)) 0 p }] })
    ⟨?_, h.jobs, h.ticker, fun n => ?_, h.journal⟩ _
  · rw [h.rest]
    rfl
  · simp only [List.getElem?_append, hl]
    split
    · exact h.producers n
    · rename_i hn
      rcases Nat.eq_or_lt_of_le (Nat.le_of_not_lt hn) with rfl | hgt
      · rw [Nat.sub_self]
        exact .some (.some ⟨rfl, rfl⟩)
      · have hnone (x : Option Activity) : [x][n - c.producers.length]? = none :=
          List.getElem?_eq_none (by simp only [List.length_singleton]; omega)
        rw [hnone, hnone]
        exact .none

theorem act (h : Pruned q c d) (m : Move)
    (hk : ∀ id a, c.pursued? (.move m) = some (id, a) → Keeps (c.cuts q id) a) :
    Pruned q (c.stride (.move m)) (d.stride (q.stride c (.move m))) := by
  cases m with
  | step id => exact h.step fun a ha => hk id a (by simp [pursued?, ha])
  | pass time => exact h.aside (·.ring time) fun _ _ _ _ _ => ⟨rfl, rfl⟩
  | spawn p => exact h.spawn p
  | kill n => exact h.kill n
  | feed p => exact h.aside (·.feed p) fun _ _ _ _ _ => ⟨rfl, rfl⟩
  | close => exact h.aside (·.closeInput) fun _ _ _ _ _ => ⟨rfl, rfl⟩
  | raise s => exact h.raise s
  | setSink s =>
    exact (h.aside (fun e => { e with display.sink := s }) fun _ _ _ _ _ => ⟨rfl, rfl⟩).record rfl
  | start k interactive =>
    have hs := h.supervise k interactive
    exact hs.pruned.record (by rw [hs.same])
  | deafen cause =>
    exact h.aside (fun e => { e with signalFault := cause }) fun _ _ _ _ _ => ⟨rfl, rfl⟩
  | release =>
    exact (h.aside (fun e => { e with hosted := false }) fun _ _ _ _ _ => ⟨rfl, rfl⟩).letGo

theorem stride (h : Pruned q c d) (hx : c.permits x)
    (hk : ∀ id a, c.pursued? x = some (id, a) → Keeps (c.cuts q id) a) :
    Pruned q (c.stride x) (d.stride (q.stride c x)) := by
  cases x with
  | move m => exact h.act m hk
  | work id =>
    simp only [permits, Bool.and_eq_true, decide_eq_true_eq] at hx
    exact h.work hx.1.1 fun a ha =>
      hk id a (by simp [pursued?, Standing.activity?_eq_some.2 ha])

theorem permits_eq (h : Pruned q c d) (x : Stride) : d.permits (q.stride c x) = c.permits x := by
  have hr : d.ready = c.ready := by rw [h.rest]; rfl
  have ho : d.hosted = c.hosted := by rw [h.rest]; rfl
  cases x with
  | move m =>
    cases m with
    | step id => simp only [Pruning.stride, permits, allows, hr]
    | pass time => simp only [Pruning.stride, permits, allows, h.now_eq]
    | spawn p => exact h.isHeld_eq
    | start k interactive => exact ho
    | _ => rfl
  | work id => simp only [Pruning.stride, permits, hr, h.terminated_eq]

/-! The attempts that are left are made as before. -/

theorem standing_rel (h : Pruned q c d) (id : TaskId) :
    Option.Rel (Trims (c.cuts q id)) (c.standing id).activity? (d.standing id).activity? := by
  have ha := h.activity? id
  rw [activity?_standing, activity?_standing, h.supervision_eq]
  split
  · exact .none
  · exact ha

theorem pursued?_rel (h : Pruned q c d) (x : Stride) :
    Option.Rel (fun p r => r.1 = p.1 ∧ Trims (c.cuts q p.1) p.2 r.2) (c.pursued? x)
      (d.pursued? (q.stride c x)) := by
  have hmap (id : TaskId) {y z : Option Activity} (hyz : Option.Rel (Trims (c.cuts q id)) y z) :
      Option.Rel (fun p r => r.1 = p.1 ∧ Trims (c.cuts q p.1) p.2 r.2) (y.map (id, ·))
        (z.map (id, ·)) := by
    cases hyz with
    | none => exact .none
    | some hab => exact .some ⟨rfl, hab⟩
  cases x with
  | move m =>
    cases m with
    | step id =>
      refine hmap id ?_
      rw [current?_eq, current?_eq, h.terminated_eq]
      split
      · exact .none
      · exact h.standing_rel id
    | _ => exact .none
  | work id => exact hmap id (h.standing_rel id)

theorem attempted?_eq (h : Pruned q c d)
    (hk : ∀ id a, c.pursued? x = some (id, a) → Keeps (c.cuts q id) a) :
    d.attempted? (q.stride c x) = c.attempted? x := by
  have hbind : (d.pursued? (q.stride c x)).bind (fun p => p.2.attempt?) =
      (c.pursued? x).bind fun p => p.2.attempt? := by
    generalize hy : c.pursued? x = y, d.pursued? (q.stride c x) = z, h.pursued?_rel x = hyz
    cases hyz with
    | none => rfl
    | some hab => exact hab.2.attempt?_eq (hk _ _ hy)
  cases x with
  | move m =>
    cases m with
    | start => rfl
    | _ => exact hbind
  | work id => exact hbind

/-! Attempts that are taken out. -/

theorem drop (h : Pruned q c d) (name : String) {y : Event} (hy : y.started? = some false) :
    Pruned q ((c.log (.alreadyStarted name)).record y) d :=
  ⟨h.rest, h.jobs, h.ticker, h.producers, h.journal.drop hy⟩

theorem omitted (h : Pruned q c d) (hx : c.permits x) (ho : q.omits c x = true)
    (hc : c.charge ≠ none) : Pruned q (c.stride x) d := by
  obtain ⟨v, hv⟩ := supervision_of_charge hc
  by_cases hm : ∃ k interactive, x = .move (.start k interactive)
  · obtain ⟨k, interactive, rfl⟩ := hm
    simp only [Console.stride, Console.act, supervise_lost hv]
    exact h.drop _ rfl
  · obtain ⟨⟨id, a⟩, hp, hcut⟩ : ∃ p, c.pursued? x = some p ∧
        (p.2.attempt?.isSome && c.cuts q p.1 p.2.index) = true := by
      unfold Pruning.omits at ho
      split at ho
      · exact absurd ⟨_, _, rfl⟩ hm
      · cases hp : c.pursued? x with
        | none => simp [hp] at ho
        | some p => exact ⟨p, rfl, by simpa [hp] using ho⟩
    simp only [Bool.and_eq_true] at hcut
    obtain ⟨⟨k, interactive⟩, ha⟩ := Option.isSome_iff_exists.1 hcut.1
    obtain ⟨rest, hs, hw⟩ := program_of_attempt? ha
    obtain ⟨y, hy, he⟩ := stride_lost hx hp hs hw hv
    have hrel := h.activity? id
    rw [activity?_of_standing (busy_of_pursued? hp)] at hrel
    generalize hb : d.activity? id = z at hrel
    cases hrel with
    | @some a b hab =>
      -- What the task goes on to is what it has before it already where the attempt is taken out.
      have hprogram : b.program = without (c.cuts q id) (a.index + 1) rest := by
        rw [hab.program, hs, without_drop (by simp [Statement.starts, hcut.2])]
      have htrims : Trims (c.cuts q id) { program := rest, index := a.index + 1 } b :=
        ⟨hprogram, hab.wait.trans hw⟩
      rw [he, ← setActivity_self hb]
      exact (h.drop (c.job k).name hy).setActivity htrims

end Pruned

/-! Runs. -/

theorem Console.Course.pruned (h : Course c₀ xs c) (h₀ : c₀.Attainable) (hs : c₀.supervision = none)
    {d₀ : Console} (hd : Pruned q c₀ d₀) (hq : q.Late c₀ xs) : ∃ d,
      Course d₀ (q.remainder c₀ xs) d ∧ d₀.tried (q.remainder c₀ xs) = q.spared c₀ xs ∧
        Pruned q c d := by
  induction h with
  | start => exact ⟨d₀, .start, rfl, hd⟩
  | @next xs c x h hx ih =>
    obtain ⟨d, hr, ht, hp⟩ := ih fun older y newer he => hq older y (newer ++ [x]) (by simp [he])
    rw [Pruning.remainder_append, Pruning.spared_append, ← h.eq_follow, Pruning.remainder,
      Pruning.remainder, Pruning.spared, Pruning.spared, List.append_nil, List.append_nil]
    cases ho : q.omits c x with
    | true =>
      -- The shorter run stands still. The attempt comes late, so the longer one only notes it.
      have htried : c₀.tried xs ≠ [] := hq xs x [] rfl (by rwa [← h.eq_follow])
      refine ⟨d, by simpa using hr, by simpa using ht, hp.omitted hx ho fun hc => ?_⟩
      exact htried ((h.charge_eq_none hs).1 hc)
    | false =>
      have hk (id : TaskId) (a : Activity) (ha : c.pursued? x = some (id, a)) :
          Keeps (c.cuts q id) a :=
        keeps_of_omits (h.attainable h₀) ho ha
      refine ⟨d.stride (q.stride c x), .next _ hr ((hp.permits_eq x).trans hx), ?_, hp.stride hx hk⟩
      have hlast := hr.tried_next (q.stride c x)
      rw [ht, hp.attempted?_eq hk] at hlast
      exact hlast

/-! What can be seen of a run. -/

namespace Event

def written? : Event → Option (List UInt8)
  | wrote bytes => some bytes
  | _ => none

def hooked? : Event → Option (TaskId × Ending)
  | ending id e => some (id, e)
  | _ => none

def called? : Event → Option (Nat × Option Request × Nat × CallNote)
  | call _ _ _ (.finished _) => none
  | call job request number note => some (job, request, number, note)
  | _ => none

def result? : Event → Option (Option TaskId × Outcome)
  | finished n _ o => if o.started? = some false then none else some (some (.producer n), o)
  | call _ _ _ (.finished o) => if o.started? = some false then none else some (some .ticker, o)
  | hostStarted _ first => if first then some (none, .started first) else none
  | _ => none

end Event

/-- A projection that sees neither positions in programs nor attempts that come too late. -/
structure Blind {α : Type} (f : Event → Option α) : Prop where
  bare : ∀ e e', e'.bare = e.bare → f e' = f e
  late : ∀ e, e.started? = some false → f e = none
  name : ∀ name, f (.logged (.alreadyStarted name)) = none

def Console.seen {α : Type} (c : Console) (f : Event → Option α) : List (Nat × α) :=
  c.journal.reverse.filterMap fun e => (f e.event).map (e.time, ·)

theorem Thins.seen {α : Type} {f : Event → Option α} {es fs : List Entry} (h : Thins es fs)
    (hf : Blind f) : fs.filterMap (fun e => (f e.event).map (e.time, ·)) =
      es.filterMap fun e => (f e.event).map (e.time, ·) := by
  induction h with
  | nil => rfl
  | keep _ he ih => simp only [List.filterMap_cons, ih, hf.bare _ _ he]
  | drop _ he ih => simp only [List.filterMap_cons, ih, hf.late _ he, hf.name, Option.map_none]

theorem Pruned.seen {α : Type} (h : Pruned q c d) {f : Event → Option α} (hf : Blind f) :
    d.seen f = c.seen f := by
  unfold Console.seen
  rw [List.filterMap_reverse, List.filterMap_reverse, h.journal.seen hf]

structure Unmoved (c d : Console) : Prop where
  output : d.seen Event.written? = c.seen Event.written?
  hooks : d.seen Event.hooked? = c.seen Event.hooked?
  calls : d.seen Event.called? = c.seen Event.called?
  results : d.seen Event.result? = c.seen Event.result?

theorem Event.bare_eq {e e' : Event} (h : e'.bare = e.bare) :
    e' = e ∨ ∃ n i j o, e = .finished n i o ∧ e' = .finished n j o := by
  cases e <;> cases e' <;> simp_all [bare]

theorem blind_of_finished {α : Type} {f : Event → Option α}
    (hf : ∀ n i j o, f (.finished n j o) = f (.finished n i o))
    (hl : ∀ e, e.started? = some false → f e = none)
    (hn : ∀ name, f (.logged (.alreadyStarted name)) = none) : Blind f := by
  refine ⟨fun e e' he => ?_, hl, hn⟩
  rcases Event.bare_eq he with rfl | ⟨n, i, j, o, rfl, rfl⟩
  · rfl
  · exact hf n i j o

theorem blind_written : Blind Event.written? :=
  blind_of_finished (fun _ _ _ _ => rfl) (fun e he => by cases e <;> first | rfl | cases he)
    fun _ => rfl

theorem blind_hooked : Blind Event.hooked? :=
  blind_of_finished (fun _ _ _ _ => rfl) (fun e he => by cases e <;> first | rfl | cases he)
    fun _ => rfl

theorem blind_called : Blind Event.called? := by
  refine blind_of_finished (fun _ _ _ _ => rfl) (fun e he => ?_) fun _ => rfl
  cases e with
  | call job request number note => cases note <;> first | rfl | cases he
  | _ => rfl

theorem blind_result : Blind Event.result? := by
  refine blind_of_finished (fun _ _ _ _ => rfl) (fun e he => ?_) fun _ => rfl
  cases e with
  | finished n i o => exact if_pos he
  | call job request number note =>
    cases note with
    | finished o => exact if_pos he
    | _ => cases he
  | hostStarted k first =>
    cases he
    rfl
  | _ => rfl

theorem Pruned.unmoved (h : Pruned q c d) : Unmoved c d :=
  ⟨h.seen blind_written, h.seen blind_hooked, h.seen blind_called, h.seen blind_result⟩

/-! A run without late attempts. -/

def Pruning.defers (q : Pruning) (c : Console) : List Stride → Bool
  | [] => true
  | x :: xs => (c.isReporting || !q.omits c x) && q.defers (c.stride x) xs

theorem Pruning.defers_cut {older newer : List Stride} (h : q.defers c (older ++ x :: newer)) :
    (c.follow older).isReporting || !q.omits (c.follow older) x := by
  induction older generalizing c with
  | nil => exact (Bool.and_eq_true_iff.1 h).1
  | cons y older ih => exact ih (Bool.and_eq_true_iff.1 h).2

theorem Pruning.late_of_defers (h : Course c₀ xs c) (hs : c₀.supervision = none)
    (hq : q.defers c₀ xs) : q.Late c₀ xs := by
  rintro older x newer rfl ho ht
  have hc := ((h.cut rfl).1.charge_eq_none hs).2 ht
  have hr : (c₀.follow older).isReporting = false := by
    simpa [charge, isReporting] using hc
  have hd := defers_cut hq
  rw [hr, ho] at hd
  cases hd

theorem Pruned.of_new? {settings : Settings} {jobs : List Job} {source : Source} {sink : Sink}
    (h₀ : new? settings jobs source sink = some c₀) (q : Pruning) : ∃ d₀,
      new? settings (jobs.mapIdx q.job) source sink = some d₀ ∧ Pruned q c₀ d₀ := by
  obtain ⟨hcap, rfl⟩ := new?_eq_some.1 h₀
  exact ⟨_, new?_eq_some.2 ⟨hcap, rfl⟩, rfl, rfl, .idle rfl, fun _ => .none, .nil⟩

namespace Console

/-- The first attempt to put a job under supervision counts, whoever makes it, and no other does. A
run without others is the same run but for what these were told. -/
theorem supervisedOnce_of_course {settings : Settings} {jobs : List Job} {source : Source}
    {sink : Sink} (h₀ : new? settings jobs source sink = some c₀) (h : Course c₀ xs c) :
    StartedOnce c₀ xs c ∧ ∀ q : Pruning, q.Late c₀ xs → ∃ d₀ d,
      new? settings (jobs.mapIdx q.job) source sink = some d₀ ∧
        Course d₀ (q.remainder c₀ xs) d ∧ d₀.tried (q.remainder c₀ xs) = q.spared c₀ xs ∧
          Pruned q c d ∧ Unmoved c d := by
  refine ⟨h.startedOnce h₀, fun q hq => ?_⟩
  obtain ⟨d₀, hd₀, hp₀⟩ := Pruned.of_new? h₀ q
  have hs : c₀.supervision = none := by
    obtain ⟨-, rfl⟩ := new?_eq_some.1 h₀
    rfl
  obtain ⟨d, hr, ht, hp⟩ := h.pruned (.new h₀) hs hp₀ hq
  exact ⟨d₀, d, hd₀, hr, ht, hp, hp.unmoved⟩

def eager : Job :=
  .scripted "job" [[.start 1 true]] []

def rush : List Stride :=
  [.move (.spawn [.start 0 false]), .move (.step (.producer 0)), .move (.step (.producer 0)),
    .move (.spawn [.start 1 true, .state]), .move (.step (.producer 1)), .move (.step .ticker),
    .move (.step .ticker), .move (.step .ticker), .move (.step (.producer 1)),
    .move (.spawn [.exit "" ⟨0⟩]), .move (.step (.producer 2)), .move (.step .printer),
    .move (.step .printer), .move (.start 2 true), .work .ticker]

def belated : Pruning
  | .producer n _ => n ≠ 0
  | _ => true

theorem supervisedOnce_of_rush : ∃ c₀ c, new? {} [eager] {} {} = some c₀ ∧ Course c₀ rush c ∧
    c.terminated = true ∧ c.starts = [true, false, false, false] ∧
      belated.spared c₀ rush = [⟨0, false⟩] ∧ StartedOnce c₀ rush c ∧ belated.Late c₀ rush ∧
        ∃ d₀ d, new? {} ([eager].mapIdx belated.job) {} {} = some d₀ ∧
          Course d₀ (belated.remainder c₀ rush) d ∧
            d₀.tried (belated.remainder c₀ rush) = belated.spared c₀ rush ∧
              Pruned belated c d ∧ Unmoved c d := by
  obtain ⟨c₀, h₀, hl, hd⟩ : ∃ c₀, new? {} [eager] {} {} = some c₀ ∧ c₀.lawful rush ∧
      belated.defers c₀ rush :=
    ⟨_, rfl, by decide, by decide⟩
  have hr : Course c₀ rush (c₀.follow rush) := .of_lawful hl
  have hs : c₀.supervision = none := by
    obtain ⟨-, rfl⟩ := new?_eq_some.1 h₀
    rfl
  have hq : belated.Late c₀ rush := Pruning.late_of_defers hr hs hd
  have hm := supervisedOnce_of_course h₀ hr
  refine ⟨c₀, c₀.follow rush, h₀, hr, ?_, ?_, ?_, hm.1, hq, hm.2 belated hq⟩ <;> cases h₀ <;> rfl

end Console

end JobConsole
