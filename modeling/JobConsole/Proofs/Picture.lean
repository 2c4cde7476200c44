import JobConsole.Proofs.Screen

namespace JobConsole

namespace Screen

variable {s s' : Screen} {infos : List (List Char)} {line text : List Char}

/-- The screen shows these infos above this progress line. Without a progress line the last line is
empty, and the cursor is at its front. -/
structure Pictured (infos : List (List Char)) (line : List Char) (s : Screen) : Prop where
  upper : s.above.map visible = infos.map visible
  lower : visible s.last = visible line
  origin : line = [] → s.last = []

theorem Pictured.covered (h : s.Pictured infos line) (text : List Char) :
    visible (s.cover line text).last = visible text := by
  rw [visible_cover_iff, h.lower]
  exact (length_visible_le line).trans (Nat.le_max_right ..)

theorem Pictured.progress (h : s.Pictured infos line) (ht : text ≠ [])
    (hr : s.Redraws line text .progress s') : s'.Pictured infos text := by
  cases hr with
  | progress => exact ⟨h.upper, h.covered text, fun he => absurd he ht⟩

theorem Pictured.info (h : s.Pictured infos line) (hr : s.Redraws line text .info s') :
    s'.Pictured (infos ++ [text]) line := by
  cases hr with
  | info hne =>
    refine ⟨?_, ?_, fun he => absurd he hne⟩
    · simp [h.upper, h.covered text]
    · simp [last]
  | lineless he =>
    obtain ⟨hbefore, hbehind⟩ := List.append_eq_nil_iff.1 (h.origin he)
    refine ⟨?_, ?_, fun _ => rfl⟩
    · simp [h.upper, hbefore, hbehind]
    · rw [he]
      rfl

end Screen

namespace Message

def info? : Message → Option (List Char)
  | info text => some text.toList
  | _ => none

def infos (calls : List Message) : List (List Char) :=
  calls.filterMap info?

theorem infos_concat (calls : List Message) (m : Message) :
    infos (calls ++ [m]) = infos calls ++ m.info?.toList := by
  unfold infos
  rw [List.filterMap_append]
  cases h : m.info? <;> simp [h]

end Message

namespace Display

open Screen

variable {calls : List Message} {sink : Sink}

/-- After calls for progress and infos the screen shows the infos in order, each on a line of its
own, and below them the latest progress text, with nothing left over of what was there before. -/
theorem picture_of_calls (sink : Sink) (calls : List Message) (hs : sink.budget = none)
    (hcalls : ∀ m ∈ calls, m.kind = .info ∨ m.kind = .progress ∧ m.text ≠ "")
    (htexts : ∀ m ∈ calls, IsPlain m.text.toList)
    (hpads : overruns { sink } (calls.map .message) = false) :
    ∃ s, screen? { sink } calls = some s ∧
      s.rows.map visible =
        (Message.infos calls ++ [(Message.latest calls).toList]).map visible := by
  suffices h : ∃ s, screen? { sink } calls = some s ∧
      s.Pictured (Message.infos calls) (Message.latest calls).toList by
    obtain ⟨s, hs, hp⟩ := h
    refine ⟨s, hs, ?_⟩
    rw [rows, List.map_append, List.map_append, hp.upper]
    simp [hp.lower]
  induction calls using List.reverseRecOn with
  | nil => exact ⟨{}, screen?_nil _, rfl, rfl, fun _ => rfl⟩
  | append_singleton calls m ih =>
    rw [List.forall_mem_append, List.forall_mem_singleton] at hcalls
    obtain ⟨s, hshown, hp⟩ := ih hcalls.1 (fun k hk => htexts k (List.mem_append_left _ hk))
      (layout_of_not_overruns hpads).1
    obtain ⟨s', hshown', hr⟩ := redraws_concat hs htexts hpads hshown
    refine ⟨s', hshown', ?_⟩
    rw [Message.latest_concat, Message.infos_concat]
    cases m with
    | info text => exact hp.info hr
    | progress text =>
      have ht : text.toList ≠ [] := by
        rw [ne_eq, String.toList_eq_nil_iff]
        exact (hcalls.2.resolve_left nofun).2
      have hp' := hp.progress ht hr
      rw [← List.append_nil (Message.infos calls)] at hp'
      exact hp'
    | prompt => exact absurd hcalls.2 (by simp [Message.kind])
    | exit => exact absurd hcalls.2 (by simp [Message.kind])

def fluctuating : List Message :=
  [.info "début", .progress "Copying 50% of 3 files", .info "Done", .progress "1% ",
    .info "a transfer has started", .info "", .progress "Copying 2%", .progress "½"]

theorem picture_of_fluctuating : ∃ s, screen? {} fluctuating = some s ∧
    s.rows.map visible =
      ["début".toList, "Done".toList, "a transfer has started".toList, [], "½".toList] := by
  obtain ⟨s, hs, hrows⟩ := picture_of_calls {} fluctuating rfl (by decide) (by decide +kernel)
    (by decide +kernel)
  exact ⟨s, hs, hrows.trans (by decide +kernel)⟩

end Display

end JobConsole
