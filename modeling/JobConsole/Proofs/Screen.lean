import Mathlib.Data.List.DropRight
import JobConsole.Proofs.Overflow

namespace JobConsole

/-- The lines of a terminal and its cursor, which stands on the last of them. -/
structure Screen where
  above : List (List Char) := []
  before : List Char := []
  behind : List Char := []

def visible (line : List Char) : List Char :=
  line.rdropWhile (· = ' ')

def IsPlain (text : List Char) : Prop :=
  '\r' ∉ text ∧ '\n' ∉ text

instance (text : List Char) : Decidable (IsPlain text) :=
  inferInstanceAs (Decidable (_ ∧ _))

theorem IsPlain.append {xs ys : List Char} (hx : IsPlain xs) (hy : IsPlain ys) :
    IsPlain (xs ++ ys) :=
  ⟨by simp [hx.1, hy.1], by simp [hx.2, hy.2]⟩

theorem isPlain_blanks (n : Nat) : IsPlain (List.replicate n ' ') :=
  ⟨by simp, by simp⟩

/-! Blanks. -/

section Blanks

variable {xs ys : List Char} {n : Nat}

theorem visible_append_of_blank (h : ∀ c ∈ ys, c = ' ') : visible (xs ++ ys) = visible xs := by
  have hr : ∀ c ∈ ys.reverse, decide (c = ' ') = true := by simpa using h
  unfold visible List.rdropWhile
  rw [List.reverse_append, List.dropWhile_append_of_pos hr]

theorem exists_blanks (xs : List Char) :
    ∃ blanks, xs = visible xs ++ blanks ∧ ∀ c ∈ blanks, c = ' ' := by
  refine ⟨_, (List.rdropWhile_append_rtakeWhile ..).symm, fun c hc => ?_⟩
  have hp := List.mem_rtakeWhile_imp hc
  simpa using hp

theorem visible_append_eq_iff : visible (xs ++ ys) = visible xs ↔ ∀ c ∈ ys, c = ' ' := by
  refine ⟨fun h => ?_, visible_append_of_blank⟩
  obtain ⟨blanks, hb, hblank⟩ := exists_blanks (xs ++ ys)
  obtain ⟨own, ho, -⟩ := exists_blanks xs
  have he : visible xs ++ (own ++ ys) = visible xs ++ blanks := by
    rw [← List.append_assoc, ← ho, ← h]
    exact hb
  intro c hc
  exact hblank c (List.append_cancel_left he ▸ List.mem_append_right own hc)

theorem length_visible_le_iff : (visible xs).length ≤ n ↔ ∀ c ∈ xs.drop n, c = ' ' := by
  constructor
  · intro h c hc
    obtain ⟨blanks, hb, hblank⟩ := exists_blanks xs
    rw [hb, List.drop_append, List.drop_eq_nil_of_le h, List.nil_append] at hc
    exact hblank c (List.mem_of_mem_drop hc)
  · intro h
    have hv : visible xs = visible (xs.take n) := by
      conv_lhs => rw [← List.take_append_drop n xs]
      exact visible_append_of_blank h
    rw [hv]
    exact (List.rdropWhile_prefix ..).length_le.trans (List.length_take_le n xs)

theorem length_visible_le (xs : List Char) : (visible xs).length ≤ xs.length :=
  (List.rdropWhile_prefix ..).length_le

end Blanks

namespace Screen

variable {s : Screen} {text line cells : List Char} {bytes : List UInt8}

def last (s : Screen) : List Char :=
  s.before ++ s.behind

def rows (s : Screen) : List (List Char) :=
  s.above ++ [s.last]

/-- A return goes back to the first cell and a line end to a new line. Any other character takes the
place of the cell under the cursor. -/
def put (s : Screen) (c : Char) : Screen :=
  if c = '\r' then { s with before := [], behind := s.last }
  else if c = '\n' then { above := s.above ++ [s.last] }
  else { s with before := s.before ++ [c], behind := s.behind.tail }

def write (s : Screen) (text : List Char) : Screen :=
  text.foldl put s

def ofBytes? (bytes : List UInt8) : Option Screen :=
  match Utf8.decode bytes with
  | .ok text => some (write {} text.toList)
  | .error _ => none

theorem write_append (s : Screen) (xs ys : List Char) :
    s.write (xs ++ ys) = (s.write xs).write ys :=
  List.foldl_append ..

theorem write_return (s : Screen) (text : List Char) :
    s.write ('\r' :: text) = write { s with before := [], behind := s.last } text :=
  rfl

theorem write_newline (s : Screen) (text : List Char) :
    s.write ('\n' :: text) = write { above := s.above ++ [s.last] } text :=
  rfl

theorem write_plain (h : IsPlain text) (s : Screen) :
    s.write text =
      { s with before := s.before ++ text, behind := s.behind.drop text.length } := by
  induction text generalizing s with
  | nil => simp [write]
  | cons c text ih =>
    obtain ⟨hr, hn⟩ := h
    rw [List.mem_cons, not_or] at hr hn
    have hc : s.put c = { s with before := s.before ++ [c], behind := s.behind.tail } := by
      rw [put, if_neg (Ne.symm hr.1), if_neg (Ne.symm hn.1)]
    change (s.put c).write text = _
    rw [hc, ih ⟨hr.2, hn.2⟩, ← List.drop_one, List.drop_drop, List.append_assoc, Nat.add_comm]
    rfl

theorem ofBytes?_append (h : ofBytes? bytes = some s) (cells : List Char) :
    ofBytes? (bytes ++ Utf8.encode cells) = some (s.write cells) := by
  unfold ofBytes? at h
  split at h
  · rename_i text hd
    obtain rfl := Option.some.inj h
    have hb : Utf8.encode (String.ofList (text.toList ++ cells)).toList =
        bytes ++ Utf8.encode cells := by
      rw [String.toList_ofList, Utf8.encode_append, Utf8.decode_eq_ok_iff.1 hd]
    unfold ofBytes?
    rw [Utf8.decode_eq_ok_iff.2 hb]
    simp only [String.toList_ofList, write_append]
  · cases h

/-- The last line drawn anew, a text covering what there was as far as `line` reaches. -/
def cover (s : Screen) (line text : List Char) : Screen :=
  { s with
    before := text ++ List.replicate (Display.pad line text) ' '
    behind := s.last.drop (max text.length line.length) }

@[simp] theorem above_cover (s : Screen) (line text : List Char) :
    (s.cover line text).above = s.above :=
  rfl

theorem write_overwrite (h : IsPlain text) (hc : Display.overwrite line text = some cells)
    (s : Screen) : s.write cells = s.cover line text := by
  have hlen : (text ++ List.replicate (Display.pad line text) ' ').length =
      max text.length line.length := by
    simp only [List.length_append, List.length_replicate, Display.pad]
    omega
  rw [Display.eq_of_overwrite hc, List.cons_append, write_return,
    write_plain (h.append (isPlain_blanks _)), hlen]
  rfl

theorem visible_cover_iff : visible (s.cover line text).last = visible text ↔
    (visible s.last).length ≤ max text.length line.length := by
  have hl : (s.cover line text).last = text ++
      (List.replicate (Display.pad line text) ' ' ++ s.last.drop (max text.length line.length)) :=
    List.append_assoc ..
  rw [hl, visible_append_eq_iff, length_visible_le_iff, List.forall_mem_append]
  exact and_iff_right fun c hc => List.eq_of_mem_replicate hc

inductive Redraws (s : Screen) (line text : List Char) : Kind → Screen → Prop
  | progress : Redraws s line text .progress (s.cover line text)
  | info (h : line ≠ []) : Redraws s line text .info
      { above := s.above ++ [(s.cover line text).last], before := line }
  | lineless (h : line = []) : Redraws s line text .info
      { above := s.above ++ [s.before ++ text ++ s.behind.drop text.length] }
  | prompt (h : line ≠ []) : Redraws s line text .prompt (s.cover line text)
  | further (h : line = []) : Redraws s line text .prompt
      { s with before := s.before ++ text, behind := s.behind.drop text.length }
  | exit : Redraws s line text .exit { above := s.above ++ [s.last] ++ [text] }

theorem redraws_of_layout {kind : Kind} (ht : IsPlain text) (hline : IsPlain line)
    (hl : Display.layout line text kind = some cells) (s : Screen) :
    Redraws s line text kind (s.write cells) := by
  cases kind with
  | progress =>
    rw [write_overwrite ht hl]
    exact .progress
  | info =>
    simp only [Display.layout] at hl
    split at hl
    · rename_i h
      obtain rfl := Option.some.inj hl
      rw [write_append, write_plain ht]
      exact .lineless h
    · rename_i h
      obtain ⟨drawn, hd, rfl⟩ := Option.map_eq_some_iff.1 hl
      rw [write_append, write_overwrite ht hd, write_newline, write_plain hline]
      have hi := @Redraws.info s line text h
      simpa using hi
  | prompt =>
    simp only [Display.layout] at hl
    split at hl
    · rename_i h
      obtain rfl := Option.some.inj hl
      rw [write_plain ht]
      exact .further h
    · rename_i h
      rw [write_overwrite ht hl]
      exact .prompt h
  | exit =>
    obtain rfl := Option.some.inj hl
    rw [List.cons_append, write_newline, write_append, write_plain ht, write_newline]
    have he := @Redraws.exit s line text
    simpa [write, last] using he

end Screen

namespace Message

def progress? : Message → Option String
  | progress text => some text
  | _ => none

def latest (calls : List Message) : String :=
  (calls.filterMap progress?).getLast?.getD ""

theorem latest_concat (calls : List Message) (m : Message) :
    latest (calls ++ [m]) = m.progress?.getD (latest calls) := by
  unfold latest
  rw [List.filterMap_append]
  cases h : m.progress? <;> simp [h]

theorem isPlain_latest {calls : List Message} (h : ∀ m ∈ calls, IsPlain m.text.toList) :
    IsPlain (latest calls).toList := by
  induction calls using List.reverseRecOn with
  | nil => exact ⟨List.not_mem_nil, List.not_mem_nil⟩
  | append_singleton calls m ih =>
    rw [List.forall_mem_append, List.forall_mem_singleton] at h
    rw [latest_concat]
    cases m with
    | progress text => exact h.2
    | _ => exact ih h.1

end Message

namespace Display

variable {d : Display} {m : Message} {s : Screen} {calls : List Message} {cells : List Char}

def screen? (d : Display) (calls : List Message) : Option Screen :=
  Screen.ofBytes? (d.transcript (calls.map .message))

def afterCalls (d : Display) (calls : List Message) : Display :=
  d.afterAll (calls.map .message)

theorem afterCalls_concat (d : Display) (calls : List Message) (m : Message) :
    d.afterCalls (calls ++ [m]) = (d.afterCalls calls).after (.message m) := by
  unfold afterCalls
  rw [List.map_append]
  exact d.afterAll_concat _ _

theorem after_message (hs : d.sink.budget = none)
    (hl : layout d.line.toList m.text.toList m.kind = some cells) :
    d.after (.message m) = { d with line := nextLine d.line m.text m.kind } ∧
      d.written (.message m) = Utf8.encode cells := by
  have hf : d.sink.fits (Utf8.encode cells) = true := by simp [Sink.fits, hs]
  have ha : d.sink.after (Utf8.encode cells) = d.sink := by
    cases hd : d.sink
    simp_all [Sink.after]
  unfold after written draw
  simp [hl, hf, ha]

theorem after_of_overrun (hl : layout d.line.toList m.text.toList m.kind = none) :
    d.after (.message m) = d := by
  simp [after, draw, hl]

theorem sink_afterCalls (hs : d.sink.budget = none) (calls : List Message) :
    (d.afterCalls calls).sink = d.sink := by
  induction calls using List.reverseRecOn with
  | nil => rfl
  | append_singleton calls m ih =>
    rw [afterCalls_concat]
    cases hl : layout (d.afterCalls calls).line.toList m.text.toList m.kind with
    | some cells =>
      rw [(after_message (by rw [ih]; exact hs) hl).1]
      exact ih
    | none =>
      rw [after_of_overrun hl]
      exact ih

theorem budget_afterCalls (hs : d.sink.budget = none) (calls : List Message) :
    (d.afterCalls calls).sink.budget = none := by
  rw [sink_afterCalls hs]
  exact hs

theorem screen?_nil (d : Display) : d.screen? [] = some {} := by
  have h : Utf8.decode [] = .ok "" := Utf8.decode_eq_ok_iff.2 rfl
  unfold screen? Screen.ofBytes?
  simp [transcript, h, Screen.write]

theorem screen?_concat (hs : d.sink.budget = none) (h : d.screen? calls = some s)
    (hl : layout (d.afterCalls calls).line.toList m.text.toList m.kind = some cells) :
    d.screen? (calls ++ [m]) = some (s.write cells) := by
  unfold screen?
  rw [List.map_append, List.map_singleton, transcript_concat]
  have hw := (after_message (budget_afterCalls hs calls) hl).2
  unfold afterCalls at hw
  rw [hw]
  exact Screen.ofBytes?_append h cells

theorem layout_of_not_overruns (h : d.overruns ((calls ++ [m]).map .message) = false) :
    d.overruns (calls.map .message) = false ∧
      ∃ cells, layout (d.afterCalls calls).line.toList m.text.toList m.kind = some cells := by
  rw [List.map_append, List.map_singleton, overruns_concat, Bool.or_eq_false_iff] at h
  exact ⟨h.1, isOverrun_eq_false_iff.1 h.2⟩

theorem line_afterCalls {sink : Sink} (hs : sink.budget = none)
    (h : overruns { sink } (calls.map .message) = false) :
    (afterCalls { sink } calls).line = Message.latest calls := by
  induction calls using List.reverseRecOn with
  | nil => rfl
  | append_singleton calls m ih =>
    obtain ⟨h, cells, hl⟩ := layout_of_not_overruns h
    rw [afterCalls_concat, (after_message (budget_afterCalls hs calls) hl).1,
      Message.latest_concat, ← ih h]
    cases m <;> rfl

theorem redraws_concat {sink : Sink} (hs : sink.budget = none)
    (ht : ∀ k ∈ calls ++ [m], IsPlain k.text.toList)
    (h : overruns { sink } ((calls ++ [m]).map .message) = false)
    (hshown : screen? { sink } calls = some s) : ∃ s', screen? { sink } (calls ++ [m]) = some s' ∧
      s.Redraws (Message.latest calls).toList m.text.toList m.kind s' := by
  rw [List.forall_mem_append, List.forall_mem_singleton] at ht
  obtain ⟨h, cells, hl⟩ := layout_of_not_overruns h
  refine ⟨_, screen?_concat hs hshown hl, ?_⟩
  rw [line_afterCalls hs h] at hl
  exact Screen.redraws_of_layout ht.2 (Message.isPlain_latest ht.1) hl s

end Display

end JobConsole
