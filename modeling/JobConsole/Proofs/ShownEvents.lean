import JobConsole.Proofs.Copying
import JobConsole.Proofs.Modesty
import Mathlib.Data.Nat.Digits.Defs

namespace JobConsole

/-- Whether an event is seen from outside: at the terminal, or by the process around. -/
def Event.isShown : Event → Bool
  | handled _ | wrote _ | ending .. => true
  | _ => false

def entriesOf (line : String) (time : Nat) (m : Message) : List Entry :=
  [⟨time, .handled m⟩,
    ⟨time, .wrote (Utf8.encode (Display.lead line.toList m.kind ++ m.text.toList ++
      Display.trail line.toList m.text.toList m.kind))⟩] ++
    (m.code?.toList.map fun code => ⟨time, .ending .printer (.exit code)⟩)

def lineAfterMessage (line : String) (x : Nat × Message) : String :=
  Display.nextLine line x.2.text x.2.kind

def shownEntries (line : String) : List (Nat × Message) → List Entry
  | [] => []
  | (time, m) :: ms => entriesOf line time m ++ shownEntries (lineAfterMessage line (time, m)) ms

variable {line : String} {time : Nat} {m : Message} {ms ns : List (Nat × Message)} {e : Entry}

theorem shownEntries_append : shownEntries line (ms ++ ns) =
    shownEntries line ms ++ shownEntries (ms.foldl lineAfterMessage line) ns := by
  induction ms generalizing line with
  | nil => rfl
  | cons x ms ih =>
    obtain ⟨time, m⟩ := x
    rw [List.cons_append, shownEntries, shownEntries, ih, List.append_assoc]
    rfl

theorem shownEntries_concat : shownEntries line (ms ++ [(time, m)]) =
    shownEntries line ms ++ entriesOf (ms.foldl lineAfterMessage line) time m := by
  rw [shownEntries_append, shownEntries, shownEntries, List.append_nil]

theorem length_foldl_lineAfterMessage (hl : line.toList.length ≤ Display.widestPad)
    (h : ∀ x ∈ ms, x.2.isModest = true) :
    (ms.foldl lineAfterMessage line).toList.length ≤ Display.widestPad := by
  induction ms generalizing line with
  | nil => exact hl
  | cons x ms ih =>
    refine ih ?_ fun y hy => h y (List.mem_cons_of_mem _ hy)
    have hx := h x List.mem_cons_self
    obtain ⟨time, m⟩ := x
    cases m with
    | progress text => exact of_decide_eq_true hx
    | _ => exact hl

theorem handled_shownEntries (line : String) (ms : List (Nat × Message)) :
    (shownEntries line ms).filterMap (·.event.handled?) = ms.map Prod.snd := by
  induction ms generalizing line with
  | nil => rfl
  | cons x ms ih =>
    obtain ⟨time, m⟩ := x
    have hs : (entriesOf line time m).filterMap (·.event.handled?) = [m] := by
      cases hc : m.code? <;> simp [entriesOf, hc, Event.handled?]
    rw [shownEntries, List.filterMap_append, hs, ih]
    rfl

theorem ending_of_mem_entriesOf (h : e ∈ entriesOf line time m) (he : e.event.ending?.isSome) :
    ∃ code, m.code? = some code ∧ e = ⟨time, .ending .printer (.exit code)⟩ := by
  rcases List.mem_append.1 h with h | h
  · rcases List.mem_cons.1 h with rfl | h
    · cases he
    · rw [List.mem_singleton.1 h] at he
      cases he
  · obtain ⟨code, hc, rfl⟩ := List.mem_map.1 h
    exact ⟨code, Option.mem_toList.1 hc, rfl⟩

theorem ending_of_mem_shownEntries (h : e ∈ shownEntries line ms) (he : e.event.ending?.isSome) :
    ∃ x ∈ ms, ∃ code, x.2.code? = some code ∧ e = ⟨x.1, .ending .printer (.exit code)⟩ := by
  induction ms generalizing line with
  | nil => cases h
  | cons x ms ih =>
    obtain ⟨time, m⟩ := x
    rcases List.mem_append.1 h with h | h
    · exact ⟨_, List.mem_cons_self, ending_of_mem_entriesOf h he⟩
    · obtain ⟨y, hy, hcode⟩ := ih h
      exact ⟨y, List.mem_cons_of_mem _ hy, hcode⟩

namespace FileCopy

variable {start files : UInt32} {k : Nat} {request : Option Request}
  {checks past rest : List (Nat × Option Request)} {x : Nat × Message}
  {older newer : List (Nat × Message)}

/-! The messages of a tick. -/

theorem slot?_of_mem_lines (h : m ∈ lines start files k request) : m.slot? = none := by
  cases utters_of_mem_lines h <;> rfl

theorem length_toString_le (n e : Nat) (he : 0 < e) (hn : n < 10 ^ e) :
    (toString n).toList.length ≤ e := by
  simpa [toString] using Nat.toDigits_length 10 n e he hn

theorem isModest_of_mem_lines (h : m ∈ lines start files k request) : m.isModest = true := by
  cases utters_of_mem_lines h with
  | copying hlt =>
    have hfiles : (toString files).toList.length ≤ 10 :=
      length_toString_le files.toNat 10 (by omega) (files.toNat_lt.trans (by omega))
    have hpercent : (toString (percentAt start k)).toList.length ≤ 2 :=
      length_toString_le _ 2 (by omega) (by omega)
    have hcopying : (toString "Copying ").toList.length = 8 := rfl
    have hof : (toString "% of ").toList.length = 5 := rfl
    have hends : (toString " files").toList.length = 6 := rfl
    simp only [Message.isModest, decide_eq_true_eq, String.toList_append, List.length_append,
      Display.widestPad]
    omega
  | _ => rfl

theorem code?_of_not_closes (hc : closes start k request = false)
    (h : m ∈ lines start files k request) : m.code? = none := by
  obtain ⟨rfl, hlt⟩ := not_closes hc
  cases utters_of_mem_lines h with
  | done hle => omega
  | checkpoint | copying => rfl

def codeAt : Option Request → ExitCode
  | none => ⟨0⟩
  | some _ => ⟨1⟩

theorem lines_of_closes (files : UInt32) (hc : closes start k request = true) :
    ∃ older text, lines start files k request = older ++ [.exit text (codeAt request)] ∧
      ∀ m ∈ older, m.code? = none := by
  cases request with
  | none =>
    have hdone : 100 ≤ percentAt start k := by simpa [closes] using hc
    refine ⟨[], s!"All done: {files} files copied", ?_, List.forall_mem_nil _⟩
    rw [lines, if_pos hdone]
    rfl
  | some r =>
    refine ⟨[.info s!"stopping at {percentAt start k}%"], _, rfl, fun m hm => ?_⟩
    rw [List.mem_singleton.1 hm]
    rfl

/-! Whole stories. -/

theorem slot?_of_mem_story (h : x ∈ story start files k checks) : x.2.slot? = none := by
  obtain ⟨i, r, -, -, hl⟩ := exists_of_mem_story h
  exact slot?_of_mem_lines hl

theorem isModest_of_mem_story (h : x ∈ story start files k checks) : x.2.isModest = true := by
  obtain ⟨i, r, -, -, hl⟩ := exists_of_mem_story h
  exact isModest_of_mem_lines hl

theorem code?_of_goesOn (hg : goesOn start k (checks.map Prod.snd) = true)
    (h : x ∈ story start files k checks) : x.2.code? = none := by
  obtain ⟨i, r, hi, -, hl⟩ := exists_of_mem_story h
  refine code?_of_not_closes (goesOn_iff.1 hg i r ?_) hl
  rw [List.getElem?_map, hi]
  rfl

theorem story_of_not_goesOn (files : UInt32)
    (hg : goesOn start k (checks.map Prod.snd) = false) :
    ∃ i time request older text, checks[i]? = some (time, request) ∧
      closes start (k + i) request = true ∧
        story start files k checks = older ++ [(time, .exit text (codeAt request))] ∧
          ∀ x ∈ older, x.2.code? = none := by
  induction checks generalizing k with
  | nil => cases hg
  | cons x checks ih =>
    obtain ⟨time, request⟩ := x
    rw [List.map_cons, goesOn] at hg
    cases hc : closes start k request with
    | true =>
      obtain ⟨older, text, hl, hn⟩ := lines_of_closes files hc
      refine ⟨0, time, request, older.map (time, ·), text, rfl, hc, ?_, ?_⟩
      · rw [story, hc, if_pos rfl, hl, List.map_append, List.append_nil]
        rfl
      · intro y hy
        obtain ⟨m, hm, rfl⟩ := List.mem_map.1 hy
        exact hn m hm
    | false =>
      rw [hc, Bool.not_false, Bool.true_and] at hg
      obtain ⟨i, time', request', older, text, hi, hc', hs, hn⟩ := ih hg
      refine ⟨i + 1, time', request', (lines start files k request).map (time, ·) ++ older, text,
        hi, ?_, ?_, ?_⟩
      · rw [← hc', Nat.add_right_comm, Nat.add_assoc]
      · rw [story, hc, if_neg Bool.false_ne_true, hs, List.append_assoc]
      · intro y hy
        rcases List.mem_append.1 hy with hy | hy
        · obtain ⟨m, hm, rfl⟩ := List.mem_map.1 hy
          exact code?_of_not_closes hc hm
        · exact hn y hy

theorem eq_nil_of_story (h : story start files k checks = older ++ x :: newer)
    (hx : x.2.code?.isSome) : goesOn start k (checks.map Prod.snd) = false ∧ newer = [] := by
  have hm : x ∈ story start files k checks := by rw [h]; simp
  cases hg : goesOn start k (checks.map Prod.snd) with
  | true =>
    rw [code?_of_goesOn hg hm] at hx
    cases hx
  | false =>
    obtain ⟨i, time, request, front, text, -, -, hs, hn⟩ := story_of_not_goesOn files hg
    refine ⟨rfl, ?_⟩
    rcases append_cons_eq_concat (h.symm.trans hs) with ⟨-, -, hnil⟩ | ⟨ys, -, hfront⟩
    · exact hnil
    · have hcode := hn x (by rw [← hfront]; simp)
      rw [hcode] at hx
      cases hx

end FileCopy

namespace Console

variable {c d : Console}

def shownJournal (c : Console) : List Entry :=
  c.journal.reverse.filter (·.event.isShown)

theorem shownJournal_of_journal {new : List Entry} (h : d.journal = new ++ c.journal) :
    d.shownJournal = c.shownJournal ++ new.reverse.filter (·.event.isShown) := by
  rw [shownJournal, h, List.reverse_append, List.filter_append]
  rfl

@[simp]
theorem shownJournal_record (c : Console) (e : Event) : (c.record e).shownJournal =
    c.shownJournal ++ if e.isShown then [⟨c.now, e⟩] else [] := by
  have hj : (c.record e).journal = [⟨c.now, e⟩] ++ c.journal := rfl
  rw [shownJournal_of_journal hj, List.reverse_singleton, List.filter_cons, List.filter_nil]

theorem shownJournal_of_duties {new : List Entry} (hj : d.journal = new ++ c.journal)
    (hd : d.duties = c.duties) (hown : ∀ id ending, .ending id ending ∈ d.events → id = .printer) :
    d.shownJournal = c.shownJournal := by
  have he : d.events = c.events ++ (new.map Entry.event).reverse := by
    rw [events, hj, List.map_append, List.reverse_append]
    rfl
  have hnone : (new.map Entry.event).reverse.filter Event.isDuty = [] := by
    rw [duties_of_events he] at hd
    exact List.self_eq_append_right.1 hd.symm
  rw [shownJournal_of_journal hj, List.filter_eq_nil_iff.2, List.append_nil]
  intro x hx hs
  have hm : x.event ∈ (new.map Entry.event).reverse :=
    List.mem_reverse.2 (List.mem_map_of_mem (List.mem_reverse.1 hx))
  have hduty := List.filter_eq_nil_iff.1 hnone _ hm
  cases hx : x.event with
  | ending id e =>
    rw [hx] at hm hduty
    obtain rfl := hown id e (he ▸ List.mem_append_right _ hm)
    exact hduty rfl
  | handled | wrote => exact hduty (by rw [hx]; rfl)
  | _ => rw [hx] at hs; cases hs

theorem handled_shownJournal (c : Console) :
    c.shownJournal.filterMap (·.event.handled?) = c.handled := by
  rw [shownJournal, List.filterMap_filter, handled, events, ← List.map_reverse, List.filterMap_map]
  refine List.filterMap_congr fun x _ => ?_
  cases hx : x.event <;> simp [Event.isShown, Event.handled?, hx]

end Console

end JobConsole
