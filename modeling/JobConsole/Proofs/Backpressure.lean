import JobConsole.Proofs.Leisure
import JobConsole.Proofs.Spacing

namespace JobConsole

def Event.isFlush : Event → Bool
  | flushed => true
  | _ => false

namespace Script

def Step.isOutside : Step → Bool
  | kill _ | startDeaf .. => false
  | _ => true

def Step.programs : Step → List Program
  | spawn programs => programs
  | _ => []

def Account.unlogged (a : Account) : Account :=
  { a with diagnostics := [] }

end Script

namespace Console

open Script (Step)

variable {c d c₀ d₀ c' d' : Console} {m : Move} {ms : List Move} {v w : Settings} {jobs : List Job}
  {source : Source} {sink : Sink} {new new' : List Entry} {time : Nat}

/-! Accounts. -/

theorem flatMap_sights (es : List Entry) : es.flatMap (·.event.bytes) =
    ((es.map Entry.event).filter Event.isSight).flatMap Event.bytes := by
  rw [flatMap_filter_of_nil (g := Event.bytes), List.flatMap_map]
  intro e he
  cases e <;> first | rfl | cases he

theorem filterMap_sights {α : Type} {f : Event → Option α}
    (hf : ∀ e, e.isSight = false → f e = none) (es : List Entry) :
    es.filterMap (fun e => f e.event) = ((es.map Entry.event).filter Event.isSight).filterMap f := by
  rw [filterMap_filter_of_none hf, List.filterMap_map]
  rfl

theorem countP_sights {q : Event → Bool} (hq : ∀ e, e.isSight = false → q e = false)
    (es : List Entry) : es.countP (fun e => q e.event) =
      ((es.map Entry.event).filter Event.isSight).countP q := by
  rw [List.countP_filter, List.countP_map]
  congr 1
  funext e
  cases he : e.event.isSight with
  | true => simp [he]
  | false => simp [he, hq]

theorem RunsSolo.mute (h : RunsSolo c₀ ms c) (h₀ : new? v jobs source sink = some c₀) :
    ∀ e ∈ c.journal, Script.callLine? c e = none := by
  obtain ⟨-, hc₀⟩ := new?_eq_some.1 h₀
  have hs : c₀.supervision = none := by rw [hc₀]
  have hj : c₀.journal = [] := by rw [hc₀]
  obtain ⟨xs, hx⟩ := h.leads
  have hcharge : c.charge = none := by
    rw [charge, h.lone.solitary.supervision]
    rfl
  have hfor := hx.events_isFor hj
  have hstarts : c.starts = [] := by
    rw [hx.starts_eq hs hj, (hx.charge_eq_none hs).1 hcharge]
    rfl
  rintro ⟨time, event⟩ he
  have hev : event ∈ c.events := List.mem_reverse.2 (List.mem_map_of_mem he)
  cases event with
  | call job request number note =>
    have hn := hfor _ hev
    rw [hcharge] at hn
    cases hn
  | hostStarted job first =>
    have hn := List.filterMap_eq_nil_iff.1 hstarts _ hev
    cases hn
  | _ => rfl

theorem sights_eq_shown (hi : c.mailbox.items = []) : c.sights = c.solo.front.shown := by
  change _ = c.ahead.shown
  rw [ahead, hi]
  rfl

theorem sights_new (h : c.sights = d.sights) (h' : c'.sights = d'.sights)
    (hc : c'.journal = new ++ c.journal) (hd : d'.journal = new' ++ d.journal) :
    (new.map Entry.event).filter Event.isSight = (new'.map Entry.event).filter Event.isSight := by
  unfold sights at h h'
  rw [hc, hd, List.map_append, List.map_append, List.filter_append, List.filter_append, h] at h'
  exact List.append_cancel_right h'

theorem results_new (h : c.results = d.results) (h' : c'.results = d'.results)
    (hc : c'.journal = new ++ c.journal) (hd : d'.journal = new' ++ d.journal) :
    new.filterMap Script.producerLine? = new'.filterMap Script.producerLine? := by
  unfold results at h h'
  rw [hc, hd, List.filterMap_append, List.filterMap_append, h] at h'
  exact List.append_cancel_right h'

/-! Two runs side by side. -/

/-- Two runs with the same moves from outside, at moments at which no task can run or none has run
yet. -/
structure Abreast (c₀ d₀ : Console) (ms : List Move) (c d : Console) : Prop where
  left : RunsSolo c₀ ms c
  right : RunsSolo d₀ ms d
  restLeft : c.ready = [] ∨ c = c₀
  restRight : d.ready = [] ∨ d = d₀

def LeadsBoth (c₀ d₀ : Console) (ms : List Move) (programs : List Program) (c d : Console) : Prop :=
  ∃ ns : List Move, (ns.filterMap Move.program?).Sublist programs ∧
    RunsSolo c₀ (ms ++ ns) c ∧ RunsSolo d₀ (ms ++ ns) d

theorem Abreast.stay (h : Abreast c₀ d₀ ms c d) (programs : List Program) :
    LeadsBoth c₀ d₀ ms programs c d := by
  refine ⟨[], List.nil_sublist programs, ?_⟩
  rw [List.append_nil]
  exact ⟨h.left, h.right⟩

section

variable (hc : new? v jobs source sink = some c₀) (hd : new? w jobs source sink = some d₀)

include hc hd

theorem solo_new_eq : c₀.solo = d₀.solo := by
  obtain ⟨-, rfl⟩ := new?_eq_some.1 hc
  obtain ⟨-, rfl⟩ := new?_eq_some.1 hd
  rfl

theorem Abreast.solo_eq (h : Abreast c₀ d₀ ms c d) : c.solo = d.solo :=
  (h.left.soloRun.meets (solo_new_eq hc hd ▸ h.right.soloRun)).eq_of_fixed
    (h.left.at_rest hc h.restLeft).2 (h.right.at_rest hd h.restRight).2

theorem Abreast.sights_eq (h : Abreast c₀ d₀ ms c d) : c.sights = d.sights := by
  rw [sights_eq_shown (h.left.at_rest hc h.restLeft).1,
    sights_eq_shown (h.right.at_rest hd h.restRight).1, h.solo_eq hc hd]

theorem Abreast.account (h : Abreast c₀ d₀ ms c d) {ns : List Move}
    (h' : Abreast c₀ d₀ ns c' d') (hjc : c'.journal = new ++ c.journal)
    (hjd : d'.journal = new' ++ d.journal) :
    (Script.account c' c.journal.length).unlogged =
    (Script.account d' d.journal.length).unlogged := by
  have hsolo := h'.solo_eq hc hd
  have hsights : (new.reverse.map Entry.event).filter Event.isSight =
      (new'.reverse.map Entry.event).filter Event.isSight := by
    rw [List.map_reverse, List.map_reverse, List.filter_reverse, List.filter_reverse,
      sights_new (h.sights_eq hc hd) (h'.sights_eq hc hd) hjc hjd]
  have hresults : new.reverse.filterMap Script.producerLine? =
      new'.reverse.filterMap Script.producerLine? := by
    rw [List.filterMap_reverse, List.filterMap_reverse,
      results_new (congrArg Solo.results (h.solo_eq hc hd)) (congrArg Solo.results hsolo) hjc hjd]
  have hcalls : new.reverse.filterMap (Script.callLine? c') = [] :=
    List.filterMap_eq_nil_iff.2 fun e he => h'.left.mute hc e
      (hjc ▸ List.mem_append_left _ (List.mem_reverse.1 he))
  have hcalls' : new'.reverse.filterMap (Script.callLine? d') = [] :=
    List.filterMap_eq_nil_iff.2 fun e he => h'.right.mute hd e
      (hjd ▸ List.mem_append_left _ (List.mem_reverse.1 he))
  unfold Script.account Script.Account.unlogged
  rw [account_new hjc, account_new hjd]
  simp only [Script.Account.mk.injEq]
  refine ⟨congrArg Solo.now hsolo, ?_, ?_, ?_, hresults, hcalls.trans hcalls'.symm, trivial,
    congrArg Solo.terminated hsolo, ?_, congrArg Solo.hosted hsolo⟩
  · rw [flatMap_sights, hsights, flatMap_sights]
  · have hflush : ∀ e : Event, e.isSight = false → e.isFlush = false := by
      intro e he
      cases e <;> first | rfl | cases he
    change new.reverse.countP (·.event.isFlush) = new'.reverse.countP (·.event.isFlush)
    rw [countP_sights hflush, hsights, countP_sights hflush]
  · have hending : ∀ e : Event, e.isSight = false → e.ending? = none := by
      intro e he
      cases e <;> first | rfl | cases he
    rw [filterMap_sights hending, hsights, filterMap_sights hending]
  · unfold isReporting
    rw [h'.left.lone.solitary.supervision, h'.right.lone.solitary.supervision]

theorem Abreast.settle (h : RunsSolo c₀ ms c) (g : RunsSolo d₀ ms d) :
    Abreast c₀ d₀ ms c.settle d.settle := by
  obtain ⟨hl, hr⟩ := h.settle hc
  obtain ⟨gl, gr⟩ := g.settle hd
  exact ⟨hl, gl, .inl hr, .inl gr⟩

theorem Abreast.allows (h : Abreast c₀ d₀ ms c d) (hm : m.isOutside = true)
    (ha : c.allows m = true) : d.allows m = true := by
  have hsolo := h.solo_eq hc hd
  cases m with
  | step | kill | start => cases hm
  | pass time =>
    have hn : c.now = d.now := congrArg Solo.now hsolo
    exact decide_eq_true (hn ▸ of_decide_eq_true ha)
  | spawn p =>
    have hh : c.hosted = d.hosted := congrArg Solo.hosted hsolo
    have hp : (c.activity? soloist).isSome = (d.activity? soloist).isSome := by
      have hs := congrArg (·.activity.isSome) hsolo
      simpa only [Console.solo, Option.isSome_map] using hs
    have ha : c.isHeld = true := ha
    rw [h.left.lone.solitary.isHeld, hh, hp, ← h.right.lone.solitary.isHeld] at ha
    exact ha
  | _ => rfl

theorem Abreast.act (h : Abreast c₀ d₀ ms c d)
    (hp : OnePart ((ms ++ [m]).filterMap Move.program?)) (hm : m.isOutside = true)
    (ha : c.allows m = true) :
    RunsSolo c₀ (ms ++ [m]) (c.act m) ∧ RunsSolo d₀ (ms ++ [m]) (d.act m) :=
  ⟨h.left.act hp hm ha (.inr (h.left.at_rest hc h.restLeft)),
    h.right.act hp hm (h.allows hc hd hm ha) (.inr (h.right.at_rest hd h.restRight))⟩

theorem Abreast.pass (h : Abreast c₀ d₀ ms c d) (hp : OnePart (ms.filterMap Move.program?))
    (hn : c.now ≤ time) (ht : ∀ t ∈ c.timers, time < t.deadline) :
    RunsSolo c₀ (ms ++ [.pass time]) { c with now := time } ∧
      RunsSolo d₀ (ms ++ [.pass time]) { d with now := time } := by
  have hsolo := h.solo_eq hc hd
  have htd : c.timers = d.timers := congrArg Solo.timers hsolo
  rw [← ring_of_ahead ht, ← ring_of_ahead (htd ▸ ht)]
  exact h.act hc hd (hp.pass) rfl (decide_eq_true hn)

theorem Abreast.passUntil (n : Nat) {ms : List Move} {c d : Console} (h : Abreast c₀ d₀ ms c d)
    (hp : OnePart (ms.filterMap Move.program?)) (hle : c.now ≤ time) (hn : time ≤ c.now + n) :
    ∃ ns : List Move, ns.filterMap Move.program? = [] ∧
      RunsSolo c₀ (ms ++ ns) (passUntil time n c) ∧
        RunsSolo d₀ (ms ++ ns) (passUntil time n d) := by
  induction n generalizing ms c d with
  | zero =>
    have hnow : c.now = d.now := congrArg Solo.now (h.solo_eq hc hd)
    have htime : time = c.now := Nat.le_antisymm hn hle
    refine ⟨[], rfl, ?_, ?_⟩
    · rw [List.append_nil, Console.passUntil, htime]
      exact h.left
    · rw [List.append_nil, Console.passUntil, htime, hnow]
      exact h.right
  | succ n ih =>
    have htimers : c.timers = d.timers := congrArg Solo.timers (h.solo_eq hc hd)
    have hwound := (h.left.leads.attainable (solo_new hc).1).wound
    -- The solos are the same, and so are the timers: both clocks stop at the same one.
    rcases hwound.due_or_ahead time with ⟨t, timers, ht, hdue⟩ | hahead
    · have hlt := hwound.ahead t (ht ▸ List.mem_cons_self)
      have hp' : OnePart ((ms ++ [Move.pass t.deadline]).filterMap Move.program?) := hp.pass
      obtain ⟨hl, hr⟩ := h.act hc hd hp' rfl (decide_eq_true hlt.le)
      have hnext := Abreast.settle hc hd hl hr
      have hstop : (c.act (.pass t.deadline)).settle.now = t.deadline :=
        (hwound.ring t.deadline).settle.now
      obtain ⟨ns, hns, hl, hr⟩ := ih hnext hp' (hstop.le.trans hdue) (by rw [hstop]; omega)
      rw [passUntil_of_due n ht hdue, passUntil_of_due n (htimers ▸ ht) hdue]
      refine ⟨.pass t.deadline :: ns, hns, ?_⟩
      rw [List.append_cons]
      exact ⟨hl, hr⟩
    · rw [passUntil_of_ahead n hahead, passUntil_of_ahead n (htimers ▸ hahead)]
      exact ⟨[.pass time], rfl, h.pass hc hd hp hle hahead⟩

theorem Abreast.leadsBoth (h : Abreast c₀ d₀ ms c d)
    (hp : OnePart (ms.filterMap Move.program? ++ m.program?.toList)) (hm : m.isOutside = true)
    (ha : c.allows m = true) : LeadsBoth c₀ d₀ ms m.program?.toList (c.act m) (d.act m) := by
  have hone : [m].filterMap Move.program? = m.program?.toList := by
    cases hpr : m.program? <;> simp [hpr]
  refine ⟨[m], hone ▸ List.Sublist.refl _, h.act hc hd ?_ hm ha⟩
  rwa [List.filterMap_append, hone]

theorem Abreast.scriptAct (h : Abreast c₀ d₀ ms c d) {s : Step} (hs : s.isOutside = true)
    (hp : OnePart (ms.filterMap Move.program? ++ s.programs)) :
    LeadsBoth c₀ d₀ ms s.programs (Script.act c s) (Script.act d s) := by
  have hsolo := h.solo_eq hc hd
  cases s with
  | kill | startDeaf => cases hs
  | spawn programs =>
    have hhosted : c.hosted = d.hosted := congrArg Solo.hosted hsolo
    simp only [Script.act, ← hhosted]
    split
    · rename_i hh
      cases programs with
      | nil => exact h.stay _
      | cons p programs =>
        have hnil : programs = [] := by
          have hl := hp.1
          simp only [Step.programs, List.length_append, List.length_cons] at hl
          exact List.length_eq_zero_iff.1 (by omega)
        subst hnil
        exact h.leadsBoth hc hd (m := .spawn p) hp rfl (by simp [Console.allows, isHeld, hh])
    · exact h.stay _
  | feed piece => exact h.leadsBoth hc hd (m := .feed piece) hp rfl rfl
  | close => exact h.leadsBoth hc hd (m := .close) hp rfl rfl
  | sink sink => exact h.leadsBoth hc hd (m := .setSink sink) hp rfl rfl
  | release => exact h.leadsBoth hc hd (m := .release) hp rfl rfl
  | signals raised =>
    rw [Script.act, Script.act, h.left.lone.foldl_raise, h.right.lone.foldl_raise]
    exact h.stay _
  | advance milliseconds =>
    have hnow : c.now = d.now := congrArg Solo.now hsolo
    obtain ⟨ns, hns, hl, hr⟩ := h.passUntil hc hd milliseconds hp.of_append
      (Nat.le_add_right c.now milliseconds) (Nat.le_refl _)
    rw [hnow] at hr
    exact ⟨ns, hns ▸ List.Sublist.refl _, hl, hr⟩

theorem Abreast.run (xs : List Step) {ms : List Move} {c d : Console} (h : Abreast c₀ d₀ ms c d)
    (hs : ∀ s ∈ xs, s.isOutside = true)
    (hp : OnePart (ms.filterMap Move.program? ++ xs.flatMap Step.programs)) :
    (Script.run c xs).map Script.Account.unlogged =
    (Script.run d xs).map Script.Account.unlogged := by
  induction xs generalizing ms c d with
  | nil => rfl
  | cons s xs ih =>
    rw [List.flatMap_cons, ← List.append_assoc] at hp
    obtain ⟨ns, hns, hl, hr⟩ := h.scriptAct hc hd (hs s List.mem_cons_self) hp.of_append
    have hnext : Abreast c₀ d₀ (ms ++ ns) (Script.perform c s) (Script.perform d s) :=
      Abreast.settle hc hd hl hr
    have hp' : OnePart ((ms ++ ns).filterMap Move.program? ++ xs.flatMap Step.programs) := by
      rw [List.filterMap_append]
      exact hp.of_sublist (List.Sublist.append_right (List.Sublist.append_left hns _) _)
    obtain ⟨zs, hz⟩ := leads_perform (h.left.leads.attainable (solo_new hc).1) s
    obtain ⟨zs', hz'⟩ := leads_perform (h.right.leads.attainable (solo_new hd).1) s
    obtain ⟨new, hj, -⟩ := hz.paces.journal
    obtain ⟨new', hj', -⟩ := hz'.paces.journal
    exact congrArg₂ List.cons (h.account hc hd hnext hj hj')
      (ih hnext (fun t ht => hs t (List.mem_cons_of_mem _ ht)) hp')

theorem Leisurely.twin (h : Leisurely c₀ ms c) (hp : OnePart (ms.filterMap Move.program?)) :
    ∃ d, Leisurely d₀ ms d ∧ d.ready = [] := by
  induction h with
  | start => exact ⟨d₀.settle, Leisurely.start.settle, ((RunsSolo.start hd).settle hd).2⟩
  | step _ _ ih => exact ih hp
  | @input ms c m h hm ho ih =>
    obtain ⟨d, g, -⟩ := ih hp.past
    have hmeet := (h.runsSolo hc hp.past).soloRun.meets
      (solo_new_eq hc hd ▸ (g.runsSolo hd hp.past).soloRun)
    have g' : Leisurely d₀ (ms ++ [m]) (d.act m) := g.input hm (hmeet.closed_eq.trans ho)
    exact ⟨_, g'.settle, ((g'.runsSolo hd hp).settle hd).2⟩
  | @rest ms c m h hm ha hr ih =>
    obtain ⟨d, g, hrd⟩ := ih hp.past
    have hboth : Abreast c₀ d₀ ms c d :=
      ⟨h.runsSolo hc hp.past, g.runsSolo hd hp.past, hr, .inl hrd⟩
    have g' : Leisurely d₀ (ms ++ [m]) (d.act m) := g.rest hm (hboth.allows hc hd hm ha) (.inl hrd)
    exact ⟨_, g'.settle, ((g'.runsSolo hd hp).settle hd).2⟩

end

/-- Of all settings a lone producer uses only the capacity of the mailbox, and whenever no task can
run, that makes no difference. -/
theorem sameAccounts_of_leisurely (hc : new? v jobs source sink = some c₀)
    (hd : new? w jobs source sink = some d₀) :
    (∀ xs : List Step, (∀ s ∈ xs, s.isOutside = true) → OnePart (xs.flatMap Step.programs) →
      (Script.run c₀ xs).map Script.Account.unlogged =
        (Script.run d₀ xs).map Script.Account.unlogged) ∧
    ∀ ms c, OnePart (ms.filterMap Move.program?) → Leisurely c₀ ms c →
      (∃ d, Leisurely d₀ ms d ∧ d.ready = []) ∧
        (c.ready = [] → ∀ d, Leisurely d₀ ms d → d.ready = [] →
          (Script.account c 0).unlogged = (Script.account d 0).unlogged) := by
  have hstart : Abreast c₀ d₀ [] c₀ d₀ := ⟨.start hc, .start hd, .inr rfl, .inr rfl⟩
  refine ⟨fun xs hs hp => hstart.run hc hd xs hs hp, fun ms c hp h => ⟨h.twin hc hd hp, ?_⟩⟩
  intro hr d g hr'
  have hend : Abreast c₀ d₀ ms c d := ⟨h.runsSolo hc hp, g.runsSolo hd hp, .inl hr, .inl hr'⟩
  have hj : c₀.journal = [] ∧ d₀.journal = [] := by
    obtain ⟨-, rfl⟩ := new?_eq_some.1 hc
    obtain ⟨-, rfl⟩ := new?_eq_some.1 hd
    exact ⟨rfl, rfl⟩
  have hjc : c.journal = c.journal ++ c₀.journal := by rw [hj.1, List.append_nil]
  have hjd : d.journal = d.journal ++ d₀.journal := by rw [hj.2, List.append_nil]
  have haccount := hstart.account hc hd hend hjc hjd
  rwa [hj.1, hj.2] at haccount

def talkative : Program :=
  [.progress "a", .info "b", .info "c", .ask "d", .sleep 5, .progress "e", .exit "f" ⟨3⟩, .park]

def reply : Piece :=
  .bytes [0x78, 0x0A]

def roomy (n : Nat) : Console where
  settings := { mailboxCapacity := n }
  jobs := []
  mailbox := { capacity := max n 1 }

theorem sameAccounts_of_cramped : ∃ c d,
    new? { mailboxCapacity := 0 } [] {} {} = some (roomy 0) ∧
      new? { mailboxCapacity := Mailbox.largestCapacity } [] {} {} =
        some (roomy Mailbox.largestCapacity) ∧
      (Script.run (roomy 0) [.spawn [talkative], .feed reply, .advance 5]).map
          (fun a => (a.flushes, a.producers.map (·.outcome), a.terminated)) =
        [(4, [.done, .done, .done], false), (1, [.done], false),
          (2, [.done, .done, .returned, .returned], true)] ∧
      (Script.run (roomy 0) [.spawn [talkative], .feed reply, .advance 5]).map
          Script.Account.unlogged =
        (Script.run (roomy Mailbox.largestCapacity) [.spawn [talkative], .feed reply, .advance 5]).map
          Script.Account.unlogged ∧
      Leisurely (roomy 0) [.spawn talkative, .feed reply, .pass 5] c ∧ c.ready = [] ∧
      Leisurely (roomy Mailbox.largestCapacity) [.spawn talkative, .feed reply, .pass 5] d ∧
      d.ready = [] ∧ c.journal.map (·.event.isSight) ≠ d.journal.map (·.event.isSight) ∧
      (Script.account c 0).unlogged = (Script.account d 0).unlogged := by
  have hc : new? { mailboxCapacity := 0 } [] {} {} = some (roomy 0) := rfl
  have hd : new? { mailboxCapacity := Mailbox.largestCapacity } [] {} {} =
      some (roomy Mailbox.largestCapacity) := rfl
  obtain ⟨hrun, hleisure⟩ := sameAccounts_of_leisurely hc hd
  -- The answer comes before the prompt in one run, and when everything waits for it in the other.
  have hasked : Leisurely (roomy 0) [.spawn talkative] _ := (Leisurely.start.rest rfl rfl (.inr rfl)).settle
  have hanswered : Leisurely (roomy 0) [.spawn talkative, .feed reply] _ := (hasked.input rfl rfl).settle
  have hended : Leisurely (roomy 0) [.spawn talkative, .feed reply, .pass 5] _ :=
    (hanswered.rest rfl rfl (.inl (by decide))).settle
  have hfed : Leisurely (roomy Mailbox.largestCapacity) [.spawn talkative, .feed reply] _ :=
    ((Leisurely.start.rest rfl rfl (.inr rfl)).input rfl rfl).settle
  have hfinal : Leisurely (roomy Mailbox.largestCapacity) [.spawn talkative, .feed reply, .pass 5] _ :=
    (hfed.rest rfl rfl (.inl (by decide))).settle
  exact ⟨_, _, hc, hd, by decide, hrun _ (by decide) (by decide), hended, by decide, hfinal,
    by decide, by decide, (hleisure _ _ (by decide) hended).2 (by decide) _ hfinal (by decide)⟩

end Console

end JobConsole
