import JobConsole.Proofs.Screen

namespace JobConsole

namespace Screen

variable {s s' : Screen} {line text : List Char}

theorem Redraws.within_info (h : s.Redraws line text .info s') :
    (visible s'.last).length ≤ line.length := by
  cases h with
  | info =>
    have hl : last { above := s.above ++ [(s.cover line text).last], before := line } = line :=
      List.append_nil line
    rw [hl]
    exact length_visible_le line
  | lineless => exact Nat.zero_le _

theorem Redraws.within_exit (h : s.Redraws line text .exit s') :
    (visible s'.last).length ≤ line.length := by
  cases h with
  | exit => exact Nat.zero_le _

theorem Redraws.within_progress (h : s.Redraws line text .progress s')
    (hs : (visible s.last).length ≤ line.length) : (visible s'.last).length ≤ text.length := by
  cases h with
  | progress =>
    rw [visible_cover_iff.2 (hs.trans (Nat.le_max_right ..))]
    exact length_visible_le text

theorem Redraws.within_prompt (h : s.Redraws line text .prompt s')
    (hs : (visible s.last).length ≤ line.length) (ht : text.length ≤ line.length) :
    (visible s'.last).length ≤ line.length := by
  cases h with
  | prompt =>
    rw [visible_cover_iff.2 (hs.trans (Nat.le_max_right ..))]
    exact (length_visible_le text).trans ht
  | further hl =>
    rw [hl, List.length_nil, Nat.le_zero, List.length_eq_zero_iff] at ht
    simpa [ht, last] using hs

end Screen

namespace Display

open Screen

variable {calls : List Message} {m : Message} {sink : Sink}

/-- Every prompt was drawn over a progress line at least as long, unless an info has come since. -/
def Covered (calls : List Message) : Prop :=
  ∀ pre text slot post, calls = pre ++ .prompt text slot :: post →
    text.length ≤ (Message.latest pre).length ∨ ∃ info, Message.info info ∈ post

theorem Covered.init (h : Covered (calls ++ [m])) (hm : m.kind ≠ .info) : Covered calls := by
  rintro pre text slot post rfl
  refine (h pre text slot (post ++ [m]) (by simp)).imp_right ?_
  rintro ⟨info, hi⟩
  rcases List.mem_append.1 hi with hi | hi
  · exact ⟨info, hi⟩
  · exact absurd (congrArg Message.kind (List.mem_singleton.1 hi).symm) hm

theorem Covered.prompt {text : String} {slot : ReplySlot}
    (h : Covered (calls ++ [.prompt text slot])) :
    text.length ≤ (Message.latest calls).length :=
  (h calls text slot [] rfl).resolve_right fun ⟨_, hi⟩ => List.not_mem_nil hi

theorem within_of_covered (hs : sink.budget = none) (htexts : ∀ m ∈ calls, IsPlain m.text.toList)
    (hpads : overruns { sink } (calls.map .message) = false) :
    ∃ s, screen? { sink } calls = some s ∧
      (Covered calls → (visible s.last).length ≤ (Message.latest calls).length) := by
  induction calls using List.reverseRecOn with
  | nil => exact ⟨{}, screen?_nil _, fun _ => le_rfl⟩
  | append_singleton calls m ih =>
    obtain ⟨s, hshown, hw⟩ := ih (fun k hk => htexts k (List.mem_append_left _ hk))
      (layout_of_not_overruns hpads).1
    obtain ⟨s', hshown', hr⟩ := redraws_concat hs htexts hpads hshown
    refine ⟨s', hshown', fun hc => ?_⟩
    rw [Message.latest_concat]
    simp only [← String.length_toList] at hw ⊢
    cases m with
    | progress text => exact hr.within_progress (hw (hc.init nofun))
    | info text => exact hr.within_info
    | prompt text slot =>
      have ht := hc.prompt
      rw [← String.length_toList, ← String.length_toList] at ht
      exact hr.within_prompt (hw (hc.init nofun)) ht
    | exit text code => exact hr.within_exit

/-- A progress call leaves its text alone on the last line exactly if no more was seen there than the
longer of this text and the progress line before it. So it does where every prompt was covered. -/
theorem progress_shown_iff (sink : Sink) (calls : List Message) (text : String)
    (hs : sink.budget = none)
    (htexts : ∀ m ∈ calls ++ [Message.progress text], IsPlain m.text.toList)
    (hpads : overruns { sink } ((calls ++ [Message.progress text]).map .message) = false) :
    ∃ s s', screen? { sink } calls = some s ∧
      screen? { sink } (calls ++ [Message.progress text]) = some s' ∧
        (visible s'.last = visible text.toList ↔
          (visible s.last).length ≤ max text.length (Message.latest calls).length) ∧
        (Covered calls → visible s'.last = visible text.toList) := by
  obtain ⟨s, hshown, hw⟩ := within_of_covered hs
    (fun k hk => htexts k (List.mem_append_left _ hk)) (layout_of_not_overruns hpads).1
  obtain ⟨s', hshown', hr⟩ := redraws_concat hs htexts hpads hshown
  have hiff : visible s'.last = visible text.toList ↔
      (visible s.last).length ≤ max text.length (Message.latest calls).length := by
    rw [← String.length_toList, ← String.length_toList]
    cases hr with
    | progress => exact visible_cover_iff
  exact ⟨s, s', hshown, hshown', hiff, fun hc => hiff.2 ((hw hc).trans (Nat.le_max_right ..))⟩

def questioned : List Message :=
  [.progress "ab", .prompt "Continue?" ⟨0, .producer 0⟩]

theorem progress_shown_of_longer :
    ∃ s', screen? {} (questioned ++ [.progress "Continuing"]) = some s' ∧
    visible s'.last = "Continuing".toList := by
  obtain ⟨s, s', hs, hs', hiff, -⟩ := progress_shown_iff {} questioned "Continuing" rfl
    (by decide +kernel) (by decide +kernel)
  have hseen : (screen? {} questioned).map (fun s => (visible s.last).length) = some 9 := by
    decide +kernel
  have hlong : max "Continuing".length (Message.latest questioned).length = 10 := by
    decide +kernel
  rw [hs, Option.map_some, Option.some.injEq] at hseen
  refine ⟨s', hs', (hiff.2 ?_).trans (by decide +kernel)⟩
  rw [hseen, hlong]
  exact Nat.le_succ 9

/-- Of a prompt that is longer than the text, the rest stays. -/
theorem residue_of_prompt :
    (∀ m ∈ questioned ++ [Message.progress "abc"], IsPlain m.text.toList) ∧
      overruns {} ((questioned ++ [Message.progress "abc"]).map .message) = false ∧
        ∃ s', screen? {} (questioned ++ [.progress "abc"]) = some s' ∧
          s'.last = "abctinue?".toList ∧ visible s'.last ≠ visible "abc".toList := by
  have h : (screen? {} (questioned ++ [.progress "abc"])).map Screen.last =
      some "abctinue?".toList := by decide +kernel
  obtain ⟨s', hs', hl⟩ := Option.map_eq_some_iff.1 h
  refine ⟨by decide +kernel, by decide +kernel, s', hs', hl, ?_⟩
  rw [hl]
  decide +kernel

end Display

end JobConsole
