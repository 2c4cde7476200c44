import JobConsole.Proofs.SoloRuns
import JobConsole.Proofs.Course
import JobConsole.Proofs.SoloSimulation

/-!
Leisure: runs in which the surroundings give a console the time that it takes. Input may come at any
moment, everything else only while no task can run. Such a run of the console of a lone producer
is a run of its solo.
-/

namespace JobConsole

def Move.isOutside : Move → Bool
  | step _ | kill _ | start .. => false
  | _ => true

def Move.program? : Move → Option Program
  | spawn p => some p
  | _ => none

/-- No more than one program, and none that puts a job under supervision. -/
def OnePart (programs : List Program) : Prop :=
  programs.length ≤ 1 ∧ ∀ p ∈ programs, ∀ x ∈ p, x.starts = false

instance (programs : List Program) : Decidable (OnePart programs) :=
  inferInstanceAs (Decidable (_ ∧ _))

theorem OnePart.of_sublist {ps qs : List Program} (h : OnePart qs) (hs : ps.Sublist qs) :
    OnePart ps :=
  ⟨hs.length_le.trans h.1, fun p hp => h.2 p (hs.subset hp)⟩

theorem OnePart.of_append {ps qs : List Program} (h : OnePart (ps ++ qs)) : OnePart ps :=
  h.of_sublist (List.sublist_append_left ps qs)

theorem OnePart.past {ms : List Move} {m : Move}
    (h : OnePart ((ms ++ [m]).filterMap Move.program?)) : OnePart (ms.filterMap Move.program?) := by
  rw [List.filterMap_append] at h
  exact h.of_append

theorem OnePart.pass {ms : List Move} {time : Nat} (h : OnePart (ms.filterMap Move.program?)) :
    OnePart ((ms ++ [Move.pass time]).filterMap Move.program?) := by
  rw [List.filterMap_append]
  exact (List.append_nil _).symm ▸ h

namespace Console

/-- A run from `c₀` in which input may come at any moment before its end. Everything else that comes
from outside comes before the first small step or when no task can run. -/
inductive Leisurely (c₀ : Console) : List Move → Console → Prop
  | start : Leisurely c₀ [] c₀
  | step {ms : List Move} {c : Console} {id : TaskId} (h : Leisurely c₀ ms c) (hi : id ∈ c.ready) :
      Leisurely c₀ ms (c.step id)
  | input {ms : List Move} {c : Console} {m : Move} (h : Leisurely c₀ ms c)
      (hm : m.isInput = true) (ho : c.reader.source.closed = false) :
      Leisurely c₀ (ms ++ [m]) (c.act m)
  | rest {ms : List Move} {c : Console} {m : Move} (h : Leisurely c₀ ms c)
      (hm : m.isOutside = true) (ha : c.allows m = true) (hr : c.ready = [] ∨ c = c₀) :
      Leisurely c₀ (ms ++ [m]) (c.act m)

variable {c d c₀ d₀ : Console} {id : TaskId} {m : Move} {ms : List Move} {v : Settings}
  {jobs : List Job} {source : Source} {sink : Sink}

/-! What comes from outside. -/

theorem allows_of_isInput (hm : m.isInput = true) : m.isOutside = true ∧ c.allows m = true := by
  cases m <;> first | exact ⟨rfl, rfl⟩ | cases hm

theorem Lone.foldl_raise (h : Lone (· ∈ c.ready) c) (raised : List Signal) :
    raised.foldl Console.raise c = c := by
  induction raised with
  | nil => rfl
  | cons s raised ih => rw [List.foldl_cons, h.raise s, ih]

theorem Lone.act (h : Lone (· ∈ c.ready) c) (hm : m.isOutside = true) (ha : c.allows m = true)
    (hp : ∀ p, m.program? = some p → c.producers = [] ∧ ∀ x ∈ p, x.starts = false) :
    Lone (· ∈ (c.act m).ready) (c.act m) := by
  cases m with
  | step | kill | start => cases hm
  | pass time => exact h.ring (of_decide_eq_true ha)
  | spawn p => exact h.spawn (hp p rfl).1 (hp p rfl).2
  | feed | close => exact h.input _
  | raise s =>
    have he : c.raise s = c := h.raise s
    simpa only [Console.act, he] using h
  | setSink sink => exact h.setSink sink
  | deafen cause => exact ⟨{ h.solitary with }, h.staged, h.capacity, h.handshake, h.queue, h.reader,
      h.printer, fun a ha => { h.duty a ha with }⟩
  | release => exact h.release

/-- What comes from outside comes to the solo, provided that all messages have been drawn. -/
theorem Lone.solo_act (h : Lone (· ∈ c.ready) c) (hm : m.isOutside = true)
    (hi : m.isInput = true ∨ c.mailbox.items = [])
    (hp : ∀ p, m.program? = some p → c.producers = []) : (c.act m).solo = c.solo.act m := by
  cases m with
  | step | kill | start => cases hm
  | pass | feed | close | deafen | release => rfl
  | spawn p =>
    have hput : (c.spawn p).activity? soloist = some { program := p } := by
      simp [activity?, soloist, Console.spawn, wake, hp p rfl]
    change (c.spawn p).solo = { c.solo with activity := some { program := p } }
    rw [Console.solo, hput]
    rfl
  | raise s =>
    have he : c.raise s = c := h.raise s
    simp only [Console.act, he, Solo.act]
  | setSink sink =>
    have hi := hi.resolve_left fun hn => by cases hn
    change (c.setSink sink).solo = { c.solo with front.display.sink := sink }
    unfold Console.solo Console.ahead
    have hi' : (c.setSink sink).mailbox.items = [] := hi
    rw [hi, hi']
    rfl

/-! A run. -/

theorem length_producers_step (h : c.Attainable) (id : TaskId) :
    (c.step id).producers.length = c.producers.length := by
  have hr := congrArg List.length (h.enrolled.step id).roster
  simpa [roster] using hr

theorem length_producers_act (hm : m.isOutside = true) :
    (c.act m).producers.length = c.producers.length + m.program?.toList.length := by
  cases m with
  | step | kill | start => cases hm
  | spawn p => exact List.length_append
  | raise s =>
    simp only [Console.act, Console.raise]
    split <;> rfl
  | _ => rfl

structure RunsSolo (c₀ : Console) (ms : List Move) (c : Console) : Prop where
  leads : Leads c₀ c
  lone : Lone (· ∈ c.ready) c
  soloRun : Solo.Run c₀.solo ms c.solo
  producers : c.producers.length = (ms.filterMap Move.program?).length

theorem solo_new (h : new? v jobs source sink = some c₀) :
    c₀.Attainable ∧ c₀.mailbox.items = [] ∧ c₀.solo.step = c₀.solo := by
  have ha := Attainable.new h
  obtain ⟨-, rfl⟩ := new?_eq_some.1 h
  exact ⟨ha, rfl, rfl⟩

namespace RunsSolo

theorem start (h₀ : new? v jobs source sink = some c₀) : RunsSolo c₀ [] c₀ := by
  refine ⟨.refl c₀, lone_new h₀, .start, ?_⟩
  obtain ⟨-, rfl⟩ := new?_eq_some.1 h₀
  rfl

theorem step (h : RunsSolo c₀ ms c) (h₀ : new? v jobs source sink = some c₀) (hi : id ∈ c.ready) :
    RunsSolo c₀ ms (c.step id) := by
  have hc := h.leads.attainable (solo_new h₀).1
  exact ⟨h.leads.trans (leads_act (m := .step id) (decide_eq_true hi)), h.lone.step hi,
    .follow h.soloRun (h.lone.follows_step id), (length_producers_step hc id).trans h.producers⟩

theorem at_rest (h : RunsSolo c₀ ms c) (h₀ : new? v jobs source sink = some c₀)
    (hr : c.ready = [] ∨ c = c₀) : c.mailbox.items = [] ∧ c.solo.step = c.solo := by
  obtain ⟨ha, hi, hs⟩ := solo_new h₀
  rcases hr with hr | rfl
  · exact h.lone.solo_at_rest hr (h.leads.attainable ha).wound
  · exact ⟨hi, hs⟩

theorem act (h : RunsSolo c₀ ms c) (hp : OnePart ((ms ++ [m]).filterMap Move.program?))
    (hm : m.isOutside = true) (ha : c.allows m = true)
    (hs : m.isInput = true ∧ c.reader.source.closed = false ∨
      c.mailbox.items = [] ∧ c.solo.step = c.solo) : RunsSolo c₀ (ms ++ [m]) (c.act m) := by
  rw [List.filterMap_append] at hp
  have hnone (p : Program) (he : m.program? = some p) : c.producers = [] := by
    have hl := hp.1
    simp only [List.filterMap_cons, he, List.filterMap_nil, List.length_append,
      List.length_singleton] at hl
    exact List.length_eq_zero_iff.1 (by have := h.producers; omega)
  have hmodest (p : Program) (he : m.program? = some p) : ∀ x ∈ p, x.starts = false :=
    hp.2 p (List.mem_append_right _ (by simp [he]))
  have hsolo := h.lone.solo_act hm (hs.imp And.left And.left) hnone
  refine ⟨h.leads.trans (leads_act ha), h.lone.act hm ha fun p he => ⟨hnone p he, hmodest p he⟩,
    hsolo ▸ .act h.soloRun (hs.imp_right And.right), ?_⟩
  rw [length_producers_act hm, h.producers, List.filterMap_append, List.length_append]
  cases hpr : m.program? <;> simp [hpr]

theorem settle (h : RunsSolo c₀ ms c) (h₀ : new? v jobs source sink = some c₀) :
    RunsSolo c₀ ms c.settle ∧ c.settle.ready = [] :=
  ⟨settle_induction (fun _ _ h hi => h.step h₀ hi) h,
    ready_settle (h.leads.attainable (solo_new h₀).1).enrolled⟩

end RunsSolo

theorem Leisurely.runsSolo (h : Leisurely c₀ ms c) (h₀ : new? v jobs source sink = some c₀)
    (hp : OnePart (ms.filterMap Move.program?)) : RunsSolo c₀ ms c := by
  induction h with
  | start => exact .start h₀
  | step _ hi ih => exact (ih hp).step h₀ hi
  | input _ hm ho ih =>
    obtain ⟨hout, ha⟩ := allows_of_isInput hm
    exact (ih hp.past).act hp hout ha (.inl ⟨hm, ho⟩)
  | rest _ hm ha hr ih => exact (ih hp.past).act hp hm ha (.inr ((ih hp.past).at_rest h₀ hr))

theorem Leisurely.settle (h : Leisurely c₀ ms c) : Leisurely c₀ ms c.settle :=
  settle_induction (fun _ _ h hi => h.step hi) h

end Console

end JobConsole
