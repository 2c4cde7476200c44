import JobConsole.Proofs.Hushing
import JobConsole.Proofs.Spacing

/-!
Silence: a console that is not to listen for signals, one that cannot register for them, and one to
which none are sent run alike, whatever the schedule. All that can tell them apart is the note that
nobody will listen.
-/

namespace JobConsole

def Stride.isSignals : Stride → Bool
  | move (.step .signalWatch) | work .signalWatch | move (.raise _) | move (.deafen _) => true
  | _ => false

inductive Silence
  | unwatched
  | failing
  | unraised
  deriving DecidableEq

def Silence.suits (v : Settings) (fault : Option String) : Silence → Prop
  | .unwatched => v.watchSignals = false
  | .failing => fault.isSome = true
  | .unraised => True

def Stride.keeps : Silence → Stride → Bool
  | .failing, move (.deafen cause) => cause.isSome
  | .unraised, move (.raise _) => false
  | _, _ => true

namespace Console

variable {c d e : Console} {id : TaskId} {a : Activity} {s : Statement} {w : Wait} {stage : Stage}
  {note : Outcome → Event} {pace : Pace} {more : Bool} {q : Silence} {x : Stride} {xs : List Stride}

/-- The signal watch is left alone, or it is brought in. -/
structure Listens (c d : Console) : Prop where
  settings : d.settings = c.settings
  fault : d.signalFault = c.signalFault
  watch : d.signalWatch = c.signalWatch ∨
    c.settings.watchSignals = true ∧ d.signalWatch = .registering

theorem Listens.of_eq (hs : d.settings = c.settings) (hf : d.signalFault = c.signalFault)
    (hw : d.signalWatch = c.signalWatch) : Listens c d :=
  ⟨hs, hf, .inl hw⟩

theorem Listens.refl (c : Console) : Listens c c :=
  .of_eq rfl rfl rfl

theorem Listens.trans (h : Listens c d) (g : Listens d e) : Listens c e := by
  refine ⟨g.settings.trans h.settings, g.fault.trans h.fault, ?_⟩
  rcases g.watch with hw | ⟨hv, hw⟩
  · rw [hw]
    exact h.watch
  · exact .inr ⟨h.settings ▸ hv, hw⟩

theorem Supervised.listens {k : Nat} {interactive first : Bool}
    (h : Supervised c k interactive d first) : Listens c d := by
  cases h with
  | already => exact .of_eq rfl rfl rfl
  | started =>
    refine ⟨rfl, rfl, ?_⟩
    cases hv : c.settings.watchSignals with
    | true => exact .inr ⟨rfl, rfl⟩
    | false => exact .inl rfl

theorem Deed.listens (h : Deed c id s w d stage) : Listens c d := by
  cases h with
  | still => exact .refl c
  | accept | refuse | join | sleep => exact .of_eq rfl rfl rfl
  | park =>
    obtain ⟨parked, he⟩ := c.park_eq id
    rw [he]
    exact .of_eq rfl rfl rfl
  | supervise => exact (c.supervise_cases _ _).listens

theorem listens_setActivity (c : Console) (id : TaskId) (a : Activity) :
    Listens c (c.setActivity id a) := by
  obtain ⟨producers, ticker, he⟩ := c.setActivity_eq id a
  rw [he]
  exact .of_eq rfl rfl rfl

theorem Pursuit.listens (h : Pursuit c id a note d pace) : Listens c d := by
  cases h with
  | ended => exact .refl c
  | rested _ he | moved _ he | followed _ he =>
    exact (deed_of_perform he).listens.trans (listens_setActivity _ _ _)
  | crashed _ he => exact (deed_of_perform he).listens
  | @finished _ _ e o _ he =>
    have hr : Listens e (e.record (note o)) := .of_eq rfl rfl rfl
    exact ((deed_of_perform he).listens.trans hr).trans (listens_setActivity _ _ _)

theorem ProducerTurn.listens {n : Nat} (h : ProducerTurn c n d more) : Listens c d := by
  cases h with
  | off => exact .refl c
  | on _ hd => exact hd.listens
  | quit _ hd => exact hd.listens.trans (.of_eq rfl rfl rfl)

theorem CallTurn.listens {v : Supervision} {request : Option Request}
    (h : CallTurn c v request a d more) : Listens c d := by
  cases h with
  | on hd => exact hd.listens
  | ended hd => exact hd.listens.trans (.of_eq rfl rfl rfl)
  | crashed hd => cases request <;> exact hd.listens.trans (.of_eq rfl rfl rfl)

theorem TickerTurn.listens (h : TickerTurn c d more) : Listens c d := by
  cases h with
  | off | asleep => exact .refl c
  | stop | due => exact .of_eq rfl rfl rfl
  | @call v =>
    obtain ⟨request, supervision, ticker, journal, he⟩ := c.beginCall_eq v
    rw [he]
    exact .of_eq rfl rfl rfl
  | on _ _ _ hd hp => exact CallTurn.listens (.on hd hp)
  | ended _ _ _ hd => exact CallTurn.listens (.ended hd)
  | crashed _ _ _ hd => exact CallTurn.listens (.crashed hd)

theorem turn_listens (c : Console) (hi : id ≠ .signalWatch) : Listens c (c.turn id).1 := by
  cases id with
  | printer =>
    obtain ⟨_, _, _, _, _, _, _, _, _, _, he⟩ := (printerTurn_cases c).frame
    rw [turn, he]
    exact .of_eq rfl rfl rfl
  | signalWatch => exact absurd rfl hi
  | keywordWatch =>
    obtain ⟨_, _, _, _, _, he⟩ := (keywordWatchTurn_cases c).frame
    rw [turn, he]
    exact .of_eq rfl rfl rfl
  | ticker => exact (tickerTurn_cases c).listens
  | producer n => exact (producerTurn_cases c n).listens

def Unheard : Silence → Console → Prop
  | .unwatched, c => c.settings.watchSignals = false ∧ c.signalWatch = .absent
  | .failing, c => c.signalFault.isSome = true ∧ ∀ pending, c.signalWatch ≠ .listening pending
  | .unraised, c => ∀ pending, c.signalWatch = .listening pending → pending = []

namespace Unheard

theorem pending (h : Unheard q c) {pending : List Signal}
    (hp : c.signalWatch = .listening pending) : q = .unraised ∧ pending = [] := by
  cases q with
  | unwatched =>
    rw [h.2] at hp
    cases hp
  | failing => exact absurd hp (h.2 pending)
  | unraised => exact ⟨rfl, h pending hp⟩

theorem listens (h : Unheard q c) (g : Listens c d) : Unheard q d := by
  have hlistening {pending : List Signal} (hp : d.signalWatch = .listening pending) :
      c.signalWatch = .listening pending := by
    rcases g.watch with hw | ⟨-, hw⟩
    · rw [← hw, hp]
    · rw [hw] at hp
      cases hp
  cases q with
  | unwatched =>
    refine ⟨g.settings ▸ h.1, ?_⟩
    rcases g.watch with hw | ⟨hv, -⟩
    · rw [hw, h.2]
    · rw [h.1] at hv
      cases hv
  | failing => exact ⟨g.fault ▸ h.1, fun pending hp => h.2 pending (hlistening hp)⟩
  | unraised => exact fun pending hp => h pending (hlistening hp)

theorem of_eq (h : Unheard q c) (hs : d.settings = c.settings)
    (hf : d.signalFault = c.signalFault) (hw : d.signalWatch = c.signalWatch) : Unheard q d :=
  h.listens (.of_eq hs hf hw)

theorem giveUp (h : Unheard q c) (hs : d.settings = c.settings)
    (hf : d.signalFault = c.signalFault) (hw : d.signalWatch = .absent) : Unheard q d := by
  cases q with
  | unwatched => exact ⟨hs ▸ h.1, hw⟩
  | failing => exact ⟨hf ▸ h.1, fun pending hp => by rw [hw] at hp; cases hp⟩
  | unraised => exact fun pending hp => by rw [hw] at hp; cases hp

theorem signalWatchTurn (h : Unheard q c) (hd : SignalWatchTurn c d more) : Unheard q d := by
  cases hd with
  | off | quiet => exact h
  | disable | stop => exact h.giveUp rfl rfl rfl
  | register hw hf =>
    cases q with
    | unwatched =>
      have ha := h.2
      rw [hw] at ha
      cases ha
    | failing =>
      have hs := h.1
      rw [hf] at hs
      cases hs
    | unraised => exact fun pending hp => (SignalWatch.listening.inj hp).symm
  | hear hw => cases (h.pending hw).2

theorem turn (h : Unheard q c) (id : TaskId) : Unheard q (c.turn id).1 := by
  by_cases hi : id = .signalWatch
  · subst hi
    exact h.signalWatchTurn (signalWatchTurn_cases c)
  · exact h.listens (turn_listens c hi)

theorem step (h : Unheard q c) (id : TaskId) : Unheard q (c.step id) := by
  obtain ⟨ready, he⟩ := c.turn_eq_step id
  rw [he]
  exact (h.turn id).of_eq rfl rfl rfl

theorem work (h : Unheard q c) (id : TaskId) : Unheard q (c.work id) := by
  rcases c.work_cases id with ⟨v, request, a, -, -, -, he⟩ | ⟨-, he⟩ <;> rw [he]
  · exact h.listens (callTurn_cases c v request a).listens
  · have ho : Unheard q { c with terminated := false } := h.of_eq rfl rfl rfl
    exact (ho.turn id).of_eq rfl rfl rfl

theorem settle (h : Unheard q c) : Unheard q c.settle :=
  settle_induction (fun _ id h _ => h.step id) h

theorem raise_eq (h : Unheard q c) (hq : q ≠ .unraised) (s : Signal) : c.raise s = c := by
  unfold Console.raise
  split
  · rename_i hp
    exact absurd (h.pending hp).1 hq
  · rfl

theorem kill (h : Unheard q c) (n : Nat) : Unheard q (c.kill n) := by
  unfold Console.kill
  split
  · exact h
  · exact h.of_eq rfl rfl rfl

theorem supervise (h : Unheard q c) (k : Nat) (interactive : Bool) :
    Unheard q (c.supervise k interactive).1 :=
  h.listens (c.supervise_cases k interactive).listens

theorem stride (h : Unheard q c) (hx : x.keeps q = true) : Unheard q (c.stride x) := by
  cases x with
  | work id => exact h.work id
  | move m =>
    cases m with
    | step id => exact h.step id
    | kill n => exact h.kill n
    | raise s =>
      have hq : q ≠ .unraised := fun hq => by subst hq; cases hx
      rw [Console.stride, act, h.raise_eq hq]
      exact h
    | start k interactive => exact (h.supervise k interactive).of_eq rfl rfl rfl
    | deafen cause =>
      cases q with
      | unwatched => exact h
      | failing => exact ⟨hx, h.2⟩
      | unraised => exact h
    | _ => exact h.of_eq rfl rfl rfl

end Unheard

/-! Any schedule. -/

namespace Akin

/-- What the signal watch does on its own cannot be told from outside. -/
theorem signalWatchTurn (h : Akin c d) (hu : Unheard q c) : Akin c.signalWatchTurn.1 d := by
  have ht := signalWatchTurn_cases c
  generalize c.signalWatchTurn.1 = e, c.signalWatchTurn.2 = more at ht
  cases ht with
  | off | quiet => exact h
  | register | stop => exact { h with }
  | @disable cause =>
    have hn := hushed_record { c with signalWatch := .absent }
      (.logged (.signalsDisabled (.signalRegistration cause)))
    exact { h with hushed := h.hushed.trans hn.symm }
  | hear hw => cases (hu.pending hw).2

theorem step_signalWatch (h : Akin c d) (hu : Unheard q c) : Akin (c.step .signalWatch) d := by
  have ht := h.signalWatchTurn hu
  have hn : TaskId.signalWatch ∉ (c.turn .signalWatch).1.others := by
    simp [Console.others]
  have ho := others_erase (c.turn .signalWatch).1 .signalWatch
  rw [List.erase_of_not_mem hn] at ho
  unfold Console.step
  dsimp only
  split
  · exact ht
  · exact { ht with others := ht.others.trans ho.symm }

theorem work_signalWatch (h : Akin c d) (hu : Unheard q c) : Akin (c.work .signalWatch) d := by
  have ho : Akin { c with terminated := false } { d with terminated := false } :=
    { h with terminated := rfl }
  have ht := ho.signalWatchTurn (hu.of_eq rfl rfl rfl)
  exact { ht with terminated := h.terminated }

theorem raise (h : Akin c d) (s : Signal) : Akin (c.raise s) d := by
  unfold Console.raise
  split
  · exact { h with others := h.others.trans (filter_enlist c.ready .signalWatch).symm }
  · exact h

theorem stride_signals (h : Akin c d) (hu : Unheard q c) (hx : x.isSignals = true) :
    Akin (c.stride x) d := by
  unfold Stride.isSignals at hx
  split at hx
  · exact h.step_signalWatch hu
  · exact h.work_signalWatch hu
  · exact h.raise _
  · exact { h with }
  · cases hx

theorem mem_ready (h : Akin c d) (hi : id ≠ .signalWatch) : id ∈ d.ready ↔ id ∈ c.ready := by
  have hm : id ∈ d.others ↔ id ∈ c.others := by rw [h.others]
  simpa [Console.others, hi] using hm

theorem permits (h : Akin c d) (hx : x.isSignals = false) (hp : c.permits x = true) :
    d.permits x = true := by
  cases x with
  | work id =>
    have hi : id ≠ .signalWatch := fun hi => by subst hi; cases hx
    simpa only [Console.permits, h.mem_ready hi, h.terminated] using hp
  | move m =>
    cases m with
    | step id =>
      have hi : id ≠ .signalWatch := fun hi => by subst hi; cases hx
      simpa only [Console.permits, allows, h.mem_ready hi] using hp
    | pass time => simpa only [Console.permits, allows, h.now] using hp
    | spawn p => simpa only [Console.permits, allows, h.isHeld] using hp
    | start k interactive => simpa only [Console.permits, allows, h.hosted] using hp
    | _ => rfl

theorem stride (h : Akin c d) (hx : x.isSignals = false) : Akin (c.stride x) (d.stride x) := by
  cases x with
  | work id => exact h.work fun hi => by subst hi; cases hx
  | move m =>
    cases m with
    | step id => exact h.step fun hi => by subst hi; cases hx
    | pass time => exact h.ring time
    | spawn p => exact h.spawn p
    | kill n => exact h.kill n
    | feed piece => exact h.feed piece
    | close => exact h.closeInput
    | raise s => cases hx
    | setSink s => exact h.setSink s
    | start k interactive => exact h.start k interactive
    | deafen cause => cases hx
    | release => exact h.release

end Akin

theorem Course.akin (h : Course c xs e) (hd : Akin c d) (hu : Unheard q c)
    (hx : ∀ x ∈ xs, x.keeps q = true) :
    ∃ e', Course d (xs.filter (!·.isSignals)) e' ∧ Akin e e' ∧ Unheard q e := by
  induction h with
  | start => exact ⟨d, .start, hd, hu⟩
  | @next xs e x h hp ih =>
    obtain ⟨e', hc, he, hu⟩ := ih fun y hy => hx y (List.mem_append_left _ hy)
    have hs := hu.stride (hx x (by simp))
    rw [List.filter_append]
    cases hsig : x.isSignals with
    | true =>
      refine ⟨e', ?_, he.stride_signals hu hsig, hs⟩
      simpa [hsig] using hc
    | false =>
      refine ⟨e'.stride x, ?_, he.stride hsig, hs⟩
      simpa [hsig] using hc.next x (he.permits hsig hp)

end Console

end JobConsole
