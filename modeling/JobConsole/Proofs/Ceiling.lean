import JobConsole.Proofs.Copying

namespace JobConsole.Console

open FileCopy

variable {start files : UInt32} {c : Console} {id : TaskId} {m : Message} {p k : Nat}
  {v : Supervision}

/-- The messages of a task that have been drawn. The printer draws in the order of acceptance. -/
def told (c : Console) (id : TaskId) : List Message :=
  (c.posted.take c.handled.length).filterMap fun x => if x.1 = id then some x.2 else none

theorem prefix_told (c : Console) (id : TaskId) : c.told id <+: c.said id :=
  (List.take_prefix _ _).filterMap _

theorem Attainable.map_posted (h : c.Attainable) :
    (c.posted.take c.handled.length).map Prod.snd = c.handled := by
  obtain ⟨d₀, hm⟩ := h.mail
  have hsent : c.accepted = c.handled ++ c.discarded ++ c.mailbox.items := hm.sent
  rw [List.map_take, ← accepted_eq, hsent, List.append_assoc, List.take_left]

theorem Copying.exists_of_mem_told (h : Copying start files c) (hm : m ∈ c.told .ticker) :
    ∃ k time r, c.checks[k]? = some (time, r) ∧
      goesOn start 0 ((c.checks.take k).map Prod.snd) = true ∧ m ∈ lines start files k r := by
  have hstory := h.said.subset ((c.prefix_told .ticker).subset hm)
  obtain ⟨⟨time, m'⟩, hx, rfl⟩ := List.mem_map.1 hstory
  obtain ⟨k, r, hk, hg, hl⟩ := exists_of_mem_story hx
  rw [Nat.zero_add] at hl
  exact ⟨k, time, r, hk, hg, hl⟩

theorem percentAt_lt {checks : List (Nat × Option Request)} {x : Nat × Option Request}
    (hs : start.toNat ≤ 100) (hk : checks[k]? = some x)
    (hg : goesOn start 0 ((checks.take k).map Prod.snd) = true) : percentAt start k < 107 := by
  obtain ⟨hlt, -⟩ := List.getElem?_eq_some_iff.1 hk
  have hlen : ((checks.take k).map Prod.snd).length = k := by simp; omega
  rcases percentAt_of_goesOn hg with hnil | hpercent
  · rw [hnil, List.length_nil] at hlen
    simp only [percentAt]
    omega
  · rwa [hlen] at hpercent

theorem Copying.head_mem_told {time : Nat} {r : Request} (h : Copying start files c)
    (hk : c.checks[k]? = some (time, some r))
    (hl : (story start files 0 (c.checks.take k)).length < (c.told .ticker).length) :
    .info s!"stopping at {percentAt start k}%" ∈ c.told .ticker := by
  obtain ⟨hlt, hx⟩ := List.getElem?_eq_some_iff.1 hk
  have hlen : (c.checks.take k).length = k := List.length_take_of_le hlt.le
  have hcut : c.checks = c.checks.take k ++ (time, some r) :: c.checks.drop (k + 1) := by
    rw [← hx, List.getElem_cons_drop, List.take_append_drop]
  have htold := (c.prefix_told .ticker).trans h.said
  obtain ⟨behind, htold⟩ := htold
  rw [hcut, story_append, List.map_append, hlen, Nat.zero_add] at htold
  split at htold
  · rw [story, List.map_append] at htold
    have hget := congrArg (·[(story start files 0 (c.checks.take k)).length]?) htold
    simp only [List.getElem?_append_left hl] at hget
    rw [List.getElem?_append_right (by simp), List.length_map, Nat.sub_self] at hget
    exact List.mem_of_getElem? hget
  · -- An earlier tick has ended the copy, and there is nothing more to tell.
    have hlength := congrArg List.length htold
    simp at hlength
    omega

structure Capped (start files : UInt32) (c : Console) : Prop where
  drawn : (c.posted.take c.handled.length).map Prod.snd = c.handled
  /-- Progress and checkpoints stay below the ceiling, and the line of a cancellation tells the
  counter of its tick. -/
  reported : ∀ m ∈ c.told .ticker, ∀ p, States m.text p → p < 100 ∨ ∃ k time r,
    c.checks[k]? = some (time, some r) ∧ p = percentAt start k ∧ m = .info s!"stopping at {p}%"
  bounded : ∀ m ∈ c.told .ticker, ∀ p, States m.text p → p ≤ 106
  /-- The ceiling is broken by the cancellation at a tick that has come beyond it, as soon as more
  is drawn than what was said before this tick. -/
  capped_iff : (∀ m ∈ c.told .ticker, ∀ p, States m.text p → p ≤ 100) ↔
    ∀ k time r, c.checks[k]? = some (time, some r) →
      (story start files 0 (c.checks.take k)).length < (c.told .ticker).length →
        percentAt start k ≤ 100
  /-- A start from which the steps of the copy meet the ceiling keeps it. -/
  aligned : start.toNat % 7 = 2 → ∀ m ∈ c.told .ticker, ∀ p, States m.text p → p ≤ 100

theorem Copying.reported (h : Copying start files c) (hm : m ∈ c.told .ticker)
    (hp : States m.text p) : p < 100 ∨ ∃ k time r,
      c.checks[k]? = some (time, some r) ∧ p = percentAt start k ∧
        m = .info s!"stopping at {p}%" := by
  obtain ⟨k, time, r, hk, -, hl⟩ := h.exists_of_mem_told hm
  obtain ⟨rfl, hlt⟩ := states_of_mem_lines hl hp
  cases utters_of_mem_lines hl with
  | stopping r => exact .inr ⟨k, time, r, hk, rfl, rfl⟩
  | cancelled => exact absurd hp not_states_cancelled
  | done | checkpoint | copying => exact .inl (hlt rfl)

theorem Copying.story_lt_told (h : Copying start files c) (hm : m ∈ c.told .ticker)
    (hp : States m.text (percentAt start k)) :
    (story start files 0 (c.checks.take k)).length < (c.told .ticker).length := by
  by_contra hle
  have htold := (c.prefix_told .ticker).trans h.said
  have hearly : c.told .ticker <+: (story start files 0 (c.checks.take k)).map Prod.snd := by
    refine List.prefix_of_prefix_length_le htold ?_ (by rw [List.length_map]; omega)
    have hs : story start files 0 (c.checks.take k) <+:
        story start files 0 (c.checks.take k ++ c.checks.drop k) := prefix_story
    rw [List.take_append_drop] at hs
    exact hs.map Prod.snd
  obtain ⟨⟨time, m'⟩, hx, rfl⟩ := List.mem_map.1 (hearly.subset hm)
  obtain ⟨i, r, hi, -, hl⟩ := exists_of_mem_story hx
  have hpercent := (states_of_mem_lines hl hp).1
  have hlt := (List.getElem?_eq_some_iff.1 hi).1
  rw [List.length_take] at hlt
  simp only [percentAt] at hpercent
  omega

/-- A copy keeps to the ceiling unless it is cancelled beyond it. -/
theorem capped_of_attainable (h : c.Attainable) (hv : c.supervision = some v)
    (hj : c.job v.job = FileCopy.job start files) (hs : start.toNat ≤ 100) :
    Capped start files c := by
  have hc := h.copying hv hj
  have hbelow {m : Message} {p : Nat} (hm : m ∈ c.told .ticker) (hp : States m.text p) :
      p < 107 ∧ ∃ k, p = percentAt start k := by
    obtain ⟨k, time, r, hk, hg, hl⟩ := hc.exists_of_mem_told hm
    obtain ⟨rfl, -⟩ := states_of_mem_lines hl hp
    exact ⟨percentAt_lt hs hk hg, k, rfl⟩
  refine ⟨h.map_posted, fun m hm p hp => hc.reported hm hp, fun m hm p hp => ?_, ⟨?_, ?_⟩,
    fun hmod m hm p hp => ?_⟩
  · have hlt := (hbelow hm hp).1
    omega
  · exact fun hall k time r hk hl => hall _ (hc.head_mem_told hk hl) _ (states_stopping.2 rfl)
  · intro hall m hm p hp
    rcases hc.reported hm hp with hlt | ⟨k, time, r, hk, rfl, -⟩
    · omega
    · exact hall k time r hk (hc.story_lt_told hm hp)
  · obtain ⟨hlt, k, rfl⟩ := hbelow hm hp
    simp only [percentAt] at hlt ⊢
    omega

def interrupted : List Move :=
  [.step .printer, .start 0 true, .step .signalWatch, .step .signalWatch, .step .ticker,
    .step .ticker, .step .ticker, .step .ticker, .step .printer, .step .printer,
    .raise .interrupt, .step .signalWatch, .step .signalWatch, .pass 2000, .step .ticker,
    .step .ticker, .step .ticker, .step .ticker, .step .printer]

theorem capped_of_interrupted : ∃ c₀ v, new? {} [FileCopy.job 93 1] {} {} = some c₀ ∧
    (c₀.play interrupted).supervision = some v ∧
      (c₀.play interrupted).told .ticker =
        [.progress "Copying 93% of 1 files", .info "stopping at 100%"] ∧
      Capped 93 1 (c₀.play interrupted) := by
  refine ⟨_, _, rfl, rfl, by decide +kernel, ?_⟩
  have hr : Reachable (play _ interrupted) :=
    ⟨{}, [FileCopy.job 93 1], {}, {}, _, interrupted, rfl, .of_legal (by decide +kernel)⟩
  exact capped_of_attainable hr.attainable rfl rfl (by decide)

theorem not_capped_of_interrupted : ∃ c₀ v, new? {} [FileCopy.job 99 1] {} {} = some c₀ ∧
    (c₀.play interrupted).Attainable ∧ (c₀.play interrupted).supervision = some v ∧
      (c₀.play interrupted).job v.job = FileCopy.job 99 1 ∧
        (c₀.play interrupted).told .ticker =
          [.progress "Copying 99% of 1 files", .info "stopping at 106%"] ∧
        ¬ ∀ m ∈ (c₀.play interrupted).told .ticker, ∀ p, States m.text p → p ≤ 100 := by
  have htold : ∃ c₀, new? {} [FileCopy.job 99 1] {} {} = some c₀ ∧
      (c₀.play interrupted).told .ticker =
        [.progress "Copying 99% of 1 files", .info "stopping at 106%"] :=
    ⟨_, rfl, by decide +kernel⟩
  obtain ⟨c₀, h₀, htold⟩ := htold
  have hr : (c₀.play interrupted).Reachable :=
    ⟨{}, [FileCopy.job 99 1], {}, {}, c₀, interrupted, h₀, .of_legal (by
      cases h₀
      decide +kernel)⟩
  have hstates : States "stopping at 106%" 106 :=
    ⟨"stopping at ".toList, [], by decide +kernel, by simp⟩
  refine ⟨c₀, ⟨0, ⟨1, 1⟩⟩, h₀, hr.attainable, ?_, ?_, htold, fun hall => ?_⟩
  · cases h₀
    rfl
  · cases h₀
    rfl
  · have hle := hall (.info "stopping at 106%") (by simp [htold]) 106 hstates
    omega

end JobConsole.Console
