import JobConsole.Script

namespace JobConsole

inductive Move
  | step (task : TaskId)
  | pass (time : Nat)
  | spawn (program : Program)
  | kill (producer : Nat)
  | feed (piece : Piece)
  | close
  | raise (signal : Signal)
  | setSink (sink : Sink)
  | start (job : Nat) (interactive : Bool)
  | deafen (cause : Option String)
  | release

namespace Console

def act (c : Console) : Move → Console
  | .step id => c.step id
  | .pass time => c.ring time
  | .spawn program => c.spawn program
  | .kill n => c.kill n
  | .feed piece => c.feed piece
  | .close => c.closeInput
  | .raise s => c.raise s
  | .setSink sink => c.setSink sink
  | .start k interactive =>
    (c.supervise k interactive).1.record (.hostStarted k (c.supervise k interactive).2)
  | .deafen cause => { c with signalFault := cause }
  | .release => c.release

/-- Only a ready task can step, time never goes back, and a task comes from someone who holds the
console. -/
def allows (c : Console) : Move → Bool
  | .step id => id ∈ c.ready
  | .pass time => c.now ≤ time
  | .spawn _ => c.isHeld
  | .start .. => c.hosted
  | _ => true

def play (c : Console) (moves : List Move) : Console :=
  moves.foldl act c

inductive Run (c₀ : Console) : List Move → Console → Prop
  | start : Run c₀ [] c₀
  | next {moves : List Move} {c : Console} (m : Move) (h : Run c₀ moves c) (ha : c.allows m) :
      Run c₀ (moves ++ [m]) (c.act m)

variable {c₀ c : Console} {moves : List Move}

theorem Run.append {ns : List Move} {d : Console} (h : Run c₀ moves c) (hd : Run c ns d) :
    Run c₀ (moves ++ ns) d := by
  induction hd with
  | start => rwa [List.append_nil]
  | next m _ ha ih => rw [← List.append_assoc]; exact .next m ih ha

def legal (c : Console) : List Move → Bool
  | [] => true
  | m :: moves => c.allows m && (c.act m).legal moves

theorem Run.of_legal {c : Console} :
    ∀ {moves : List Move}, c.legal moves → Run c moves (c.play moves)
  | [], _ => .start
  | m :: moves, h => by
    simp only [legal, Bool.and_eq_true] at h
    exact Run.append (.next m .start h.1) (Run.of_legal h.2)

def Reachable (c : Console) : Prop :=
  ∃ settings jobs source sink c₀ moves,
    new? settings jobs source sink = some c₀ ∧ Run c₀ moves c

theorem Run.invariant {P : Console → Prop} (h : Run c₀ moves c) (h₀ : P c₀)
    (keep : ∀ c m, c.allows m → P c → P (c.act m)) : P c := by
  induction h with
  | start => exact h₀
  | next m _ ha ih => exact keep _ m ha ih

theorem Reachable.act {m : Move} (h : c.Reachable) (ha : c.allows m) : (c.act m).Reachable := by
  obtain ⟨settings, jobs, source, sink, c₀, moves, h₀, hr⟩ := h
  exact ⟨settings, jobs, source, sink, c₀, moves ++ [m], h₀, .next m hr ha⟩

theorem Reachable.run {d : Console} (h : c.Reachable) (hd : Run c moves d) : d.Reachable := by
  induction hd with
  | start => exact h
  | next m _ ha ih => exact ih.act ha

theorem Reachable.invariant {P : Console → Prop} (h : c.Reachable)
    (base : ∀ {settings jobs source sink c₀}, new? settings jobs source sink = some c₀ → P c₀)
    (keep : ∀ c m, c.Reachable → c.allows m → P c → P (c.act m)) : P c := by
  obtain ⟨settings, jobs, source, sink, c₀, moves, h₀, hr⟩ := h
  have both : c.Reachable ∧ P c := by
    apply hr.invariant (P := fun c => c.Reachable ∧ P c)
    · exact ⟨⟨settings, jobs, source, sink, c₀, [], h₀, .start⟩, base h₀⟩
    · exact fun c m ha h => ⟨h.1.act ha, keep c m h.1 ha h.2⟩
  exact both.2

theorem run_induction {P : Console → Prop} (hstep : ∀ c id, P c → id ∈ c.ready → P (c.step id))
    (n : Nat) (h : P c) : P (run n c) := by
  induction n generalizing c with
  | zero => exact h
  | succ n ih =>
    unfold run
    split
    · exact h
    · rename_i id rest hr
      exact ih (hstep c id h (hr ▸ List.mem_cons_self))

theorem settle_induction {P : Console → Prop}
    (hstep : ∀ c id, P c → id ∈ c.ready → P (c.step id)) (h : P c) : P c.settle :=
  run_induction hstep _ h

theorem new?_eq_some {settings : Settings} {jobs : List Job} {source : Source} {sink : Sink} :
    new? settings jobs source sink = some c₀ ↔
      settings.capacity ≤ Mailbox.largestCapacity ∧
        c₀ = { settings, jobs, mailbox := { capacity := settings.capacity }, display := { sink },
               reader := { source } } := by
  unfold new? Mailbox.empty?
  split
  · rename_i h
    simp only [Option.map_some, Option.some.injEq, h, true_and]
    exact eq_comm
  · rename_i h
    simp [h]

end Console

end JobConsole
