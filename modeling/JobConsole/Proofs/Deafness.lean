import JobConsole.Proofs.Silence

namespace JobConsole

namespace Script

def Step.hush : Step → Step
  | signals _ => signals []
  | startDeaf k interactive _ => startDeaf k interactive ""
  | s => s

def Step.keeps : Silence → Step → Bool
  | .unraised, signals raised => raised.isEmpty
  | _, _ => true

def Step.deafens : Step → Bool
  | startDeaf .. => true
  | _ => false

def Account.hush (a : Account) : Account :=
  { a with diagnostics := a.diagnostics.filter (!·.2.isSignals) }

/-- No signal is heard in a run: nobody is to listen, the registration fails, or none is raised. -/
def Unheard (v : Settings) (fault : Option String) (xs : List Step) : Prop :=
  (∃ q : Silence, q.suits v fault ∧ ∀ s ∈ xs, s.keeps q = true) ∨
    xs.head?.any Step.deafens = true

theorem hush_cases {s t : Step} (h : s.hush = t.hush) :
    s = t ∨ (∃ raised raised', s = .signals raised ∧ t = .signals raised') ∨
      ∃ k interactive cause cause',
        s = .startDeaf k interactive cause ∧ t = .startDeaf k interactive cause' := by
  cases s <;> cases t <;> simp_all [Step.hush]

end Script

namespace Console

open Script (Step)

variable {c d : Console} {id : TaskId} {q q' : Silence} {fault : Option String}
  {ids ids' : List TaskId} {s t : Step}

/-! One moment. -/

theorem head?_others (h : c.ready.head? ≠ some .signalWatch) : c.others.head? = c.ready.head? := by
  unfold others
  cases hr : c.ready with
  | nil => rfl
  | cons id rest =>
    rw [hr] at h
    have hi : id ≠ .signalWatch := fun hi => h (by rw [hi]; rfl)
    rw [List.filter_cons_of_pos (by simpa using hi)]
    rfl

/-- The signal watch takes its small steps whenever it is its turn, and the others are in step. -/
theorem Akin.settle (h : Akin c d) (hu : Unheard q c) (hu' : Unheard q' d)
    (hc : Enrolled ids c) (hd : Enrolled ids' d) : Akin c.settle d.settle := by
  induction hn : c.workload + d.workload using Nat.strong_induction_on generalizing c d with
  | _ n ih =>
    have hlt {c : Console} {ids rest : List TaskId} {i : TaskId} (hc : Enrolled ids c)
        (hr : c.ready = i :: rest) : (c.step i).workload < c.workload :=
      workload_step_lt hc (hr ▸ List.mem_cons_self)
    by_cases hl : c.ready.head? = some .signalWatch
    · obtain ⟨rest, hr⟩ := List.head?_eq_some_iff.1 hl
      have hw := hlt hc hr
      rw [settle_step hc hr]
      exact ih _ (by omega) (h.step_signalWatch hu) (hu.step _) hu' (hc.step _) hd rfl
    by_cases hl' : d.ready.head? = some .signalWatch
    · obtain ⟨rest, hr⟩ := List.head?_eq_some_iff.1 hl'
      have hw := hlt hd hr
      rw [settle_step hd hr]
      exact ih _ (by omega) (h.symm.step_signalWatch hu').symm hu (hu'.step _) hc (hd.step _) rfl
    have hhead : d.ready.head? = c.ready.head? := by
      rw [← head?_others hl, ← head?_others hl', h.others]
    cases hr : c.ready with
    | nil =>
      have hr' : d.ready = [] := by simpa [hr] using hhead
      rw [settle_idle hr, settle_idle hr']
      exact h
    | cons i rest =>
      obtain ⟨rest', hr'⟩ := List.head?_eq_some_iff.1 (hhead.trans (by rw [hr]; rfl))
      have hi : i ≠ .signalWatch := fun hi => hl (by rw [hr, hi]; rfl)
      have hw := hlt hc hr
      have hw' := hlt hd hr'
      rw [settle_step hc hr, settle_step hd hr']
      exact ih _ (by omega) (h.step hi) (hu.step i) (hu'.step i) (hc.step i) (hd.step i) rfl

/-! The clock. -/

theorem Akin.passUntil (time n : Nat) {c d : Console} (h : Akin c d) (hu : Unheard q c)
    (hu' : Unheard q' d) (hc : Enrolled ids c) (hd : Enrolled ids' d) :
    Akin (passUntil time n c) (passUntil time n d) := by
  have hnow {c d : Console} (h : Akin c d) (timers : List Timer) :
      Akin { c with now := time, timers } { d with now := time, timers } :=
    { h with now := rfl, timers := rfl }
  induction n generalizing c d with
  | zero => exact { h with now := rfl }
  | succ n ih =>
    have ht := h.timers
    unfold Console.passUntil
    cases hr : c.timers with
    | nil =>
      rw [hr] at ht
      rw [ht]
      exact hnow h []
    | cons t timers =>
      rw [hr] at ht
      rw [ht]
      dsimp only
      split
      · have hring : Unheard q (c.ring t.deadline) := hu.of_eq rfl rfl rfl
        have hring' : Unheard q' (d.ring t.deadline) := hu'.of_eq rfl rfl rfl
        exact ih ((h.ring _).settle hring hring' (hc.ring _) (hd.ring _)) hring.settle
          hring'.settle (hc.ring _).settle (hd.ring _).settle
      · exact hnow h (t :: timers)

theorem Unheard.passUntil (time n : Nat) {c : Console} (h : Unheard q c) :
    Unheard q (passUntil time n c) := by
  induction n generalizing c with
  | zero => exact h.of_eq rfl rfl rfl
  | succ n ih =>
    have hring (later : Nat) : Unheard q (c.ring later) := h.of_eq rfl rfl rfl
    unfold Console.passUntil
    split
    · exact h.of_eq rfl rfl rfl
    · split
      · exact ih (hring _).settle
      · exact h.of_eq rfl rfl rfl

/-! Steps of a script. -/

theorem Akin.spawnAll (programs : List Program) {c d : Console} (h : Akin c d) :
    Akin (programs.foldl Console.spawn c) (programs.foldl Console.spawn d) := by
  induction programs generalizing c d with
  | nil => exact h
  | cons p programs ih => exact ih (h.spawn p)

theorem Akin.raiseAll (raised : List Signal) {c d : Console} (h : Akin c d) :
    Akin (raised.foldl Console.raise c) d := by
  induction raised generalizing c with
  | nil => exact h
  | cons s raised ih => exact ih (h.raise s)

theorem act_startDeaf (c : Console) (k : Nat) (interactive : Bool) (cause : String) :
    Script.act c (.startDeaf k interactive cause) =
      if c.hosted then act { c with signalFault := some cause } (.start k interactive) else c :=
  rfl

theorem Akin.startDeaf (h : Akin c d) (k : Nat) (interactive : Bool) (cause cause' : String) :
    Akin (Script.act c (.startDeaf k interactive cause))
      (Script.act d (.startDeaf k interactive cause')) := by
  have hf : Akin { c with signalFault := some cause } { d with signalFault := some cause' } :=
    { h with }
  rw [act_startDeaf, act_startDeaf]
  by_cases hh : c.hosted = true
  · rw [if_pos hh, if_pos (h.hosted.trans hh)]
    exact hf.start k interactive
  · rw [if_neg hh, if_neg (h.hosted ▸ hh)]
    exact h

theorem Akin.scriptAct (h : Akin c d) (hst : s.hush = t.hush) (hu : Unheard q c)
    (hu' : Unheard q' d) (hc : Enrolled ids c) (hd : Enrolled ids' d) :
    Akin (Script.act c s) (Script.act d t) := by
  rcases Script.hush_cases hst with rfl | ⟨raised, raised', rfl, rfl⟩ |
    ⟨k, interactive, cause, cause', rfl, rfl⟩
  · cases s with
    | spawn programs =>
      rw [Script.act, Script.act, h.hosted]
      split
      · exact h.spawnAll programs
      · exact h
    | kill n => exact h.kill n
    | feed piece => exact h.feed piece
    | close => exact h.closeInput
    | sink sink => exact h.setSink sink
    | advance milliseconds =>
      simp only [Script.act, elapse, h.now]
      exact h.passUntil _ _ hu hu' hc hd
    | signals raised => exact ((h.raiseAll raised).symm.raiseAll raised).symm
    | release => exact h.release
    | startDeaf k interactive cause => exact h.startDeaf k interactive cause cause
  · exact ((h.raiseAll raised).symm.raiseAll raised').symm
  · exact h.startDeaf k interactive cause cause'

theorem Unheard.startDeaf {cause : String} (h : Unheard q { c with signalFault := some cause })
    (hh : c.hosted = false → Unheard q c) (k : Nat) (interactive : Bool) :
    Unheard q (Script.act c (.startDeaf k interactive cause)) := by
  rw [act_startDeaf]
  split
  · exact (h.supervise k interactive).of_eq rfl rfl rfl
  · rename_i hc
    exact hh (by simpa using hc)

theorem Unheard.scriptAct (h : Unheard q c) (hs : s.keeps q = true) :
    Unheard q (Script.act c s) := by
  cases s with
  | spawn programs =>
    have hall (programs : List Program) {c : Console} (h : Unheard q c) :
        Unheard q (programs.foldl spawn c) := by
      induction programs generalizing c with
      | nil => exact h
      | cons p programs ih => exact ih (h.of_eq rfl rfl rfl)
    rw [Script.act]
    split
    · exact hall programs h
    · exact h
  | kill n => exact h.kill n
  | advance milliseconds => exact h.passUntil _ _
  | signals raised =>
    by_cases hq : q = .unraised
    · subst hq
      have hn : raised = [] := by simpa [Step.keeps] using hs
      subst hn
      exact h
    · have hall (raised : List Signal) : raised.foldl Console.raise c = c := by
        induction raised with
        | nil => rfl
        | cons s raised ih => rw [List.foldl_cons, h.raise_eq hq, ih]
      rw [Script.act, hall]
      exact h
  | startDeaf k interactive cause =>
    have hf : Unheard q { c with signalFault := some cause } := by
      cases q with
      | failing => exact ⟨rfl, h.2⟩
      | _ => exact h
    exact .startDeaf hf (fun _ => h) k interactive
  | _ => exact h.of_eq rfl rfl rfl

/-! Accounts. -/

theorem filterMap_hushed {α : Type} (g : Entry → Option α)
    (hg : ∀ e, e.event.isSignals = true → g e = none) (es : List Entry) :
    (es.filter (!·.event.isSignals)).filterMap g = es.filterMap g :=
  filterMap_filter_of_none (fun e he => hg e (by simpa using he)) es

theorem logged_of_isSignals {x : Event} (h : x.isSignals = true) :
    ∃ y, x = .logged y ∧ y.isSignals = true := by
  cases x with
  | logged y => exact ⟨y, rfl, h⟩
  | _ => cases h

theorem flatMap_hushed (es : List Entry) :
    (es.filter (!·.event.isSignals)).flatMap (·.event.bytes) = es.flatMap (·.event.bytes) := by
  refine flatMap_filter_of_nil (g := fun e : Entry => e.event.bytes) (fun e he => ?_) es
  obtain ⟨time, event⟩ := e
  obtain ⟨y, rfl, -⟩ := logged_of_isSignals (by simpa using he)
  rfl

theorem callLine?_eq (h : Akin c d) : Script.callLine? d = Script.callLine? c := by
  funext e
  unfold Script.callLine?
  split
  · rw [h.job]
  · rfl
  · rfl

theorem Akin.account {c' d' : Console} {new new' : List Entry} (h : Akin c d) (h' : Akin c' d')
    (hc : c'.journal = new ++ c.journal) (hd : d'.journal = new' ++ d.journal) :
    (Script.account c' c.journal.length).hush = (Script.account d' d.journal.length).hush := by
  symm
  have hnew : new'.reverse.filter (!·.event.isSignals) =
      new.reverse.filter (!·.event.isSignals) := by
    have ho : d.hushed = c.hushed := h.hushed
    have hh : d'.hushed = c'.hushed := h'.hushed
    unfold Console.hushed at hh ho
    rw [hc, hd, List.filter_append, List.filter_append, ho] at hh
    rw [List.filter_reverse, List.filter_reverse, List.append_cancel_right hh]
  have key {α : Type} (g : Entry → Option α)
      (hg : ∀ e, e.event.isSignals = true → g e = none) :
      new'.reverse.filterMap g = new.reverse.filterMap g := by
    rw [← filterMap_hushed g hg, hnew, filterMap_hushed g hg]
  have silent {α : Type} {g : Entry → Option α}
      (hg : ∀ time y, y.isSignals = true → g ⟨time, .logged y⟩ = none) :
      new'.reverse.filterMap g = new.reverse.filterMap g := by
    refine key g fun e he => ?_
    obtain ⟨time, event⟩ := e
    obtain ⟨y, rfl, hy⟩ := logged_of_isSignals he
    exact hg time y hy
  unfold Script.account Script.Account.hush
  rw [account_new hc, account_new hd, callLine?_eq h']
  simp only [Script.Account.mk.injEq, List.filter_filterMap, List.countP_eq_length_filter,
    ← List.filterMap_eq_filter]
  refine ⟨h'.now, ?_, ?_, silent fun _ _ _ => rfl, silent fun _ _ _ => rfl,
    silent fun _ _ _ => rfl, silent fun time y hy => ?_, h'.terminated, ?_, h'.hosted⟩
  · rw [← flatMap_hushed, hnew, flatMap_hushed]
  · exact congrArg List.length (silent fun _ _ _ => rfl)
  · simp [Event.diagnostic?, hy]
  · exact congrArg Option.isSome h'.supervision

/-! Runs. -/

def Muted (c : Console) (xs : List Step) : Prop :=
  (∃ q, Unheard q c ∧ ∀ s ∈ xs, s.keeps q = true) ∨
    xs.head?.any Step.deafens = true ∧ c.hosted = true ∧ c.signalWatch = .absent

theorem Muted.next {xs : List Step} (h : Muted c (s :: xs)) : (∃ q, Unheard q c) ∧
    ∃ q, Unheard q (Script.act c s) ∧ ∀ t ∈ xs, t.keeps q = true := by
  rcases h with ⟨q, hq, hs⟩ | ⟨hs, hh, ha⟩
  · exact ⟨⟨q, hq⟩, q, hq.scriptAct (hs s List.mem_cons_self),
      fun t ht => hs t (List.mem_cons_of_mem _ ht)⟩
  · refine ⟨⟨.unraised, fun pending hp => by rw [ha] at hp; cases hp⟩, .failing, ?_, ?_⟩
    · cases s with
      | startDeaf k interactive cause =>
        have hf : Unheard .failing { c with signalFault := some cause } :=
          ⟨rfl, fun pending hp => by cases ha.symm.trans hp⟩
        exact .startDeaf hf (fun hn => absurd (hh.symm.trans hn) (by simp)) k interactive
      | _ => cases hs
    · exact fun t _ => by cases t <;> rfl

theorem Akin.hush_run (xs : List Step) : ∀ {c d : Console} {ys : List Step}, Akin c d →
    c.Attainable → d.Attainable → Muted c xs → Muted d ys → xs.map Step.hush = ys.map Step.hush →
      (Script.run c xs).map Script.Account.hush = (Script.run d ys).map Script.Account.hush := by
  induction xs with
  | nil =>
    intro c d ys _ _ _ _ _ he
    rw [List.map_eq_nil_iff.1 (he.symm : ys.map Step.hush = [])]
    rfl
  | cons s xs ih =>
    intro c d ys h hc hd hu hu' he
    obtain ⟨t, ys, rfl, hst, he⟩ := List.map_eq_cons_iff.1 he.symm
    obtain ⟨⟨q, hq⟩, p, hp, hxs⟩ := hu.next
    obtain ⟨⟨q', hq'⟩, p', hp', hys⟩ := hu'.next
    have hact := h.scriptAct hst.symm hq hq' hc.enrolled hd.enrolled
    have hsettle := hact.settle hp hp' ((leads_scriptAct hc s).attainable hc).enrolled
      ((leads_scriptAct hd t).attainable hd).enrolled
    obtain ⟨zs, hz⟩ := leads_perform hc s
    obtain ⟨zs', hz'⟩ := leads_perform hd t
    obtain ⟨new, hj, -⟩ := hz.paces.journal
    obtain ⟨new', hj', -⟩ := hz'.paces.journal
    have hrest := ih hsettle (hc.perform s) (hd.perform t) (.inl ⟨p, hp.settle, hxs⟩)
      (.inl ⟨p', hp'.settle, hys⟩) he.symm
    exact congrArg₂ List.cons (h.account hsettle hj hj') hrest

variable {v : Settings} {jobs : List Job} {source : Source} {sink : Sink}

theorem unheard_of_suits (h : q.suits v fault) (hv : c.settings = v) (hf : c.signalFault = fault)
    (hw : c.signalWatch = .absent) : Unheard q c := by
  cases q with
  | unwatched => exact ⟨hv ▸ h, hw⟩
  | failing => exact ⟨hf ▸ h, fun pending hp => by rw [hw] at hp; cases hp⟩
  | unraised => exact fun pending hp => by rw [hw] at hp; cases hp

theorem muted_of_unheard {xs : List Step} (h : Script.Unheard v fault xs) (hv : c.settings = v)
    (hf : c.signalFault = fault) (hw : c.signalWatch = .absent) (hh : c.hosted = true) :
    Muted c xs := by
  rcases h with ⟨q, hq, hs⟩ | hs
  · exact .inl ⟨q, unheard_of_suits hq hv hf hw, hs⟩
  · exact .inr ⟨hs, hh, hw⟩

theorem new?_fields (h : new? v jobs source sink = some c) :
    c.settings = v ∧ c.signalWatch = .absent ∧ c.hosted = true := by
  obtain ⟨-, rfl⟩ := new?_eq_some.1 h
  exact ⟨rfl, rfl, rfl⟩

theorem akin_new {watch : Bool} (hc : new? v jobs source sink = some c)
    (hd : new? { v with watchSignals := watch } jobs source sink = some d)
    (fault fault' : Option String) :
    Akin { c with signalFault := fault } { d with signalFault := fault' } := by
  obtain ⟨-, rfl⟩ := new?_eq_some.1 hc
  obtain ⟨-, rfl⟩ := new?_eq_some.1 hd
  constructor <;> rfl

/-- Whether signals are listened for makes no difference as long as none is heard. -/
theorem sameAccounts_of_unheard {watch : Bool} (hc : new? v jobs source sink = some c)
    (hd : new? { v with watchSignals := watch } jobs source sink = some d)
    (fault fault' : Option String) :
    (∀ xs ys, Script.Unheard v fault xs →
      Script.Unheard { v with watchSignals := watch } fault' ys →
        xs.map Step.hush = ys.map Step.hush →
          (Script.run { c with signalFault := fault } xs).map Script.Account.hush =
            (Script.run { d with signalFault := fault' } ys).map Script.Account.hush) ∧
    ∀ (q : Silence) xs e, q.suits v fault → (∀ x ∈ xs, x.keeps q = true) →
      Course { c with signalFault := fault } xs e → ∃ e',
        Course { d with signalFault := fault' } (xs.filter (!·.isSignals)) e' ∧ Akin e e' := by
  have hac : Attainable { c with signalFault := fault } :=
    (Attainable.new hc).act (.deafen fault) rfl
  have had : Attainable { d with signalFault := fault' } :=
    (Attainable.new hd).act (.deafen fault') rfl
  have hk := akin_new hc hd fault fault'
  obtain ⟨hv, hw, hh⟩ := new?_fields hc
  obtain ⟨hv', hw', hh'⟩ := new?_fields hd
  refine ⟨fun xs ys hx hy he => hk.hush_run xs hac had (muted_of_unheard hx hv rfl hw hh)
    (muted_of_unheard hy hv' rfl hw' hh') he, fun q xs e hq hx hce => ?_⟩
  obtain ⟨e', he', hke, -⟩ := hce.akin hk (unheard_of_suits hq hv rfl hw) hx
  exact ⟨e', he', hke⟩

def hounded : List Step :=
  [.spawn [[.start 0 false]], .signals [.interrupt],
    .feed (.bytes [0x63, 0x61, 0x6E, 0x63, 0x65, 0x6C, 0x0A]), .advance 4500]

def warned : List Stride :=
  [.move (.spawn [.start 0 true]), .move (.step (.producer 0)), .move (.step .signalWatch),
    .move (.raise .interrupt), .move (.step .ticker)]

theorem sameAccounts_of_hounded : ∃ c d,
    new? {} [stumbling] {} {} = some c ∧
      new? { watchSignals := false } [stumbling] {} {} = some d ∧
      (Script.run { c with signalFault := some "denied" } hounded).map
          (fun a => a.calls.map fun l => (l.time, l.kind, l.number)) =
        [[(0, .report, 1)], [], [], [(2000, .cancel, 1), (4000, .cancel, 2)]] ∧
      (Script.run { c with signalFault := some "denied" } hounded).map Script.Account.hush =
        (Script.run d (hounded.map Step.hush)).map Script.Account.hush ∧
      ∃ e', Course d (warned.filter (!·.isSignals)) e' ∧
        Akin (follow { c with signalFault := some "denied" } warned) e' := by
  have hc : new? {} [stumbling] {} {} = some _ := rfl
  have hd : new? { watchSignals := false } [stumbling] {} {} = some _ := rfl
  obtain ⟨hrun, hcourse⟩ := sameAccounts_of_unheard (v := {}) hc hd (some "denied") none
  refine ⟨_, _, hc, hd, by decide, hrun hounded (hounded.map Step.hush)
    (.inl ⟨.failing, rfl, by decide⟩) (.inl ⟨.unwatched, rfl, by decide⟩) rfl,
    hcourse .failing warned _ rfl (by decide) (Course.of_lawful (by decide))⟩

end Console

end JobConsole
