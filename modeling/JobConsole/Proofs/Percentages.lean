import JobConsole.Console.Journal
import JobConsole.FileCopy
import Mathlib.Data.List.Basic

namespace JobConsole

/-- Whether a number in percent stands in a text, with all its digits. -/
def States (text : String) (percent : Nat) : Prop :=
  ∃ before after, text.toList = before ++ Nat.toDigits 10 percent ++ '%' :: after ∧
    ∀ c ∈ before.getLast?, c.isDigit = false

namespace FileCopy

def percentAt (start : UInt32) (tick : Nat) : Nat :=
  start.toNat + 7 * tick

def lines (start files : UInt32) (tick : Nat) : Option Request → List Message
  | none =>
    let percent := percentAt start tick
    if 100 ≤ percent then [.exit s!"All done: {files} files copied" ⟨0⟩]
    else
      (if 0 < percent ∧ percent % 21 = 0 then [.info s!"checkpoint at {percent}%"] else []) ++
        [.progress s!"Copying {percent}% of {files} files"]
  | some _ => [.info s!"stopping at {percentAt start tick}%", .exit "Copy cancelled" ⟨1⟩]

def closes (start : UInt32) (tick : Nat) (request : Option Request) : Bool :=
  request.isSome || decide (100 ≤ percentAt start tick)

def goesOn (start : UInt32) (tick : Nat) : List (Option Request) → Bool
  | [] => true
  | request :: requests => !closes start tick request && goesOn start (tick + 1) requests

/-- What the copy says from a tick on, given the times of its checks and what they saw. Behind the
tick at which it ends it says nothing. -/
def story (start files : UInt32) (tick : Nat) :
    List (Nat × Option Request) → List (Nat × Message)
  | [] => []
  | (time, request) :: checks =>
    (lines start files tick request).map (time, ·) ++
      if closes start tick request then [] else story start files (tick + 1) checks

end FileCopy

/-! Texts. -/

theorem not_mem_toDigits (n : Nat) : '%' ∉ Nat.toDigits 10 n := by
  intro h
  have hd := Nat.isDigit_of_mem_toDigits (by decide) (by decide) h
  cases hd

theorem toDigits_eq_of_append {before before' : List Char} {n n' : Nat}
    (h : before ++ Nat.toDigits 10 n = before' ++ Nat.toDigits 10 n')
    (hb : ∀ c ∈ before.getLast?, c.isDigit = false)
    (hb' : ∀ c ∈ before'.getLast?, c.isDigit = false) : n = n' := by
  have hend {xs : List Char} (n : Nat) (hx : ∀ c ∈ xs.getLast?, c.isDigit = false) :
      (xs ++ Nat.toDigits 10 n).reverse.takeWhile Char.isDigit = (Nat.toDigits 10 n).reverse := by
    have hdigits : ∀ c ∈ (Nat.toDigits 10 n).reverse, c.isDigit = true := fun c hc =>
      Nat.isDigit_of_mem_toDigits (by decide) (by decide) (List.mem_reverse.1 hc)
    have hnone : xs.reverse.takeWhile Char.isDigit = [] := by
      rw [← List.head?_reverse] at hx
      cases hxs : xs.reverse with
      | nil => rfl
      | cons c cs => simp [hx c (by rw [hxs]; rfl)]
    rw [List.reverse_append, List.takeWhile_append_of_pos hdigits, hnone, List.append_nil]
  have hr : (Nat.toDigits 10 n).reverse = (Nat.toDigits 10 n').reverse := by
    rw [← hend n hb, ← hend n' hb', h]
  have hd := List.reverse_injective hr
  calc n = Nat.ofDigitChars 10 (Nat.toDigits 10 n) 0 :=
        (Nat.ofDigitChars_toDigits (by decide) (by decide)).symm
    _ = Nat.ofDigitChars 10 (Nat.toDigits 10 n') 0 := by rw [hd]
    _ = n' := Nat.ofDigitChars_toDigits (by decide) (by decide)

/-- In a text with one percent sign stands the number before it. -/
theorem states_iff {text : String} (before after : List Char) {n p : Nat}
    (h : text.toList = before ++ Nat.toDigits 10 n ++ '%' :: after)
    (hb : ∀ c ∈ before.getLast?, c.isDigit = false) (hbefore : '%' ∉ before)
    (hafter : '%' ∉ after) : States text p ↔ p = n := by
  constructor
  · rintro ⟨before', after', h', hb'⟩
    have hfront : before' ++ Nat.toDigits 10 p = before ++ Nat.toDigits 10 n := by
      have hcut {xs ys : List Char} {n : Nat} (hxs : '%' ∉ xs) :
          (xs ++ Nat.toDigits 10 n ++ '%' :: ys).takeWhile (· ≠ '%') = xs ++ Nat.toDigits 10 n := by
        have hall : ∀ c ∈ xs ++ Nat.toDigits 10 n, decide (c ≠ '%') = true := by
          intro c hc
          refine decide_eq_true ?_
          rintro rfl
          exact (List.mem_append.1 hc).elim hxs (not_mem_toDigits n)
        rw [List.takeWhile_append_of_pos hall]
        simp
      -- There is one percent sign in the text, so there is none in front of the number.
      have hone : before'.count '%' + (after'.count '%' + 1) = 1 := by
        have hc := congrArg (List.count '%') (h'.symm.trans h)
        simpa [List.count_eq_zero_of_not_mem, not_mem_toDigits, hbefore, hafter] using hc
      have hbefore' : '%' ∉ before' := List.count_eq_zero.1 (by omega)
      rw [← hcut hbefore', ← hcut hbefore, ← h', h]
    exact toDigits_eq_of_append hfront hb' hb
  · rintro rfl
    exact ⟨before, after, h, hb⟩

theorem not_states {text : String} {p : Nat} (h : '%' ∉ text.toList) : ¬ States text p := by
  rintro ⟨before, after, he, -⟩
  exact h (by simp [he])

namespace FileCopy

variable {start files : UInt32} {k p time : Nat} {request : Option Request} {m : Message}
  {requests : List (Option Request)} {checks more : List (Nat × Option Request)}

theorem states_stopping : States s!"stopping at {k}%" p ↔ p = k := by
  refine states_iff "stopping at ".toList [] ?_ ?_ ?_ ?_
  · simp [toString]
  · simp
  · decide
  · decide

theorem states_checkpoint : States s!"checkpoint at {k}%" p ↔ p = k := by
  refine states_iff "checkpoint at ".toList [] ?_ ?_ ?_ ?_
  · simp [toString]
  · simp
  · decide
  · decide

theorem states_copying : States s!"Copying {k}% of {files} files" p ↔ p = k := by
  refine states_iff "Copying ".toList
    (" of ".toList ++ Nat.toDigits 10 files.toNat ++ " files".toList) ?_ ?_ ?_ ?_
  · simp [toString]
  · simp
  · decide
  · simp [not_mem_toDigits]

theorem not_states_done : ¬ States s!"All done: {files} files copied" p :=
  not_states (by simp [toString, not_mem_toDigits])

theorem not_states_cancelled : ¬ States "Copy cancelled" p :=
  not_states (by decide)

inductive Utters (start files : UInt32) (k : Nat) : Option Request → Message → Prop
  | stopping (r : Request) :
    Utters start files k (some r) (.info s!"stopping at {percentAt start k}%")
  | cancelled (r : Request) : Utters start files k (some r) (.exit "Copy cancelled" ⟨1⟩)
  | done (h : 100 ≤ percentAt start k) :
    Utters start files k none (.exit s!"All done: {files} files copied" ⟨0⟩)
  | checkpoint (h : percentAt start k < 100) (hc : percentAt start k % 21 = 0) :
    Utters start files k none (.info s!"checkpoint at {percentAt start k}%")
  | copying (h : percentAt start k < 100) :
    Utters start files k none (.progress s!"Copying {percentAt start k}% of {files} files")

theorem utters_of_mem_lines (hm : m ∈ lines start files k request) :
    Utters start files k request m := by
  cases request with
  | none =>
    simp only [lines] at hm
    split at hm
    case isTrue h =>
      rw [List.mem_singleton.1 hm]
      exact .done h
    case isFalse h =>
      have hlt : percentAt start k < 100 := Nat.lt_of_not_le h
      rcases List.mem_append.1 hm with hm | hm
      · split at hm
        case isTrue hc =>
          rw [List.mem_singleton.1 hm]
          exact .checkpoint hlt hc.2
        case isFalse => cases hm
      · rw [List.mem_singleton.1 hm]
        exact .copying hlt
  | some r =>
    rcases List.mem_cons.1 hm with rfl | hm
    · exact .stopping r
    · rw [List.mem_singleton.1 hm]
      exact .cancelled r

theorem states_of_mem_lines (hm : m ∈ lines start files k request) (hp : States m.text p) :
    p = percentAt start k ∧ (request = none → p < 100) := by
  cases utters_of_mem_lines hm with
  | stopping => exact ⟨states_stopping.1 hp, nofun⟩
  | cancelled => exact absurd hp not_states_cancelled
  | done => exact absurd hp not_states_done
  | checkpoint h =>
    obtain rfl := states_checkpoint.1 hp
    exact ⟨rfl, fun _ => h⟩
  | copying h =>
    obtain rfl := states_copying.1 hp
    exact ⟨rfl, fun _ => h⟩

/-! Stories. -/

theorem not_closes (h : closes start k request = false) :
    request = none ∧ percentAt start k < 100 := by
  simp only [closes, Bool.or_eq_false_iff, decide_eq_false_iff_not, Option.isSome_eq_false_iff,
    Option.isNone_iff_eq_none] at h
  exact ⟨h.1, by omega⟩

theorem goesOn_iff : goesOn start k requests = true ↔
    ∀ i r, requests[i]? = some r → closes start (k + i) r = false := by
  induction requests generalizing k with
  | nil => simp [goesOn]
  | cons r rs ih =>
    simp only [goesOn, Bool.and_eq_true, Bool.not_eq_true', ih]
    constructor
    · rintro ⟨hr, hrs⟩ i q hq
      cases i with
      | zero =>
        cases hq
        exact hr
      | succ i =>
        rw [← Nat.add_assoc, Nat.add_right_comm]
        exact hrs i q hq
    · refine fun h => ⟨h 0 r rfl, fun i q hq => ?_⟩
      rw [Nat.add_right_comm, Nat.add_assoc]
      exact h (i + 1) q hq

theorem goesOn_concat : goesOn start k (requests ++ [request]) =
    (goesOn start k requests && !closes start (k + requests.length) request) := by
  induction requests generalizing k with
  | nil => simp [goesOn]
  | cons r rs ih =>
    rw [List.cons_append, goesOn, goesOn, ih, Bool.and_assoc, List.length_cons, Nat.add_right_comm,
      Nat.add_assoc]

theorem percentAt_of_goesOn (h : goesOn start 0 requests = true) :
    requests = [] ∨ percentAt start requests.length < 107 := by
  cases hr : requests.getLast? with
  | none => exact .inl (List.getLast?_eq_none_iff.1 hr)
  | some r =>
    have hlen : requests ≠ [] := by
      rintro rfl
      cases hr
    have hpos := List.length_pos_iff.2 hlen
    rw [List.getLast?_eq_getElem?] at hr
    have hlast := (not_closes (goesOn_iff.1 h _ r hr)).2
    refine .inr ?_
    simp only [percentAt] at hlast ⊢
    omega

theorem story_append : story start files k (checks ++ more) = story start files k checks ++
    if goesOn start k (checks.map Prod.snd) then
      story start files (k + checks.length) more else [] := by
  induction checks generalizing k with
  | nil => simp [story, goesOn]
  | cons x checks ih =>
    obtain ⟨time, r⟩ := x
    rw [List.cons_append, story, story, List.map_cons, goesOn, List.length_cons]
    cases closes start k r with
    | true => simp
    | false =>
      rw [if_neg nofun, if_neg nofun, ih, List.append_assoc]
      simp only [Bool.not_false, Bool.true_and, Nat.add_assoc, Nat.add_comm 1]

theorem story_concat : story start files k (checks ++ [(time, request)]) =
    story start files k checks ++ if goesOn start k (checks.map Prod.snd) then
      (lines start files (k + checks.length) request).map (time, ·) else [] := by
  rw [story_append, story]
  simp [story]

theorem prefix_story : story start files k checks <+: story start files k (checks ++ more) :=
  story_append ▸ List.prefix_append ..

theorem exists_of_mem_story (h : (time, m) ∈ story start files k checks) :
    ∃ i r, checks[i]? = some (time, r) ∧ goesOn start k ((checks.take i).map Prod.snd) = true ∧
      m ∈ lines start files (k + i) r := by
  induction checks generalizing k with
  | nil => cases h
  | cons x checks ih =>
    obtain ⟨t, r⟩ := x
    rcases List.mem_append.1 h with h | h
    · obtain ⟨m', hm, he⟩ := List.mem_map.1 h
      cases he
      exact ⟨0, r, rfl, rfl, hm⟩
    · split at h
      · cases h
      · rename_i hc
        obtain ⟨i, q, hi, hg, hm⟩ := ih h
        refine ⟨i + 1, q, hi, ?_, ?_⟩
        · simpa [goesOn, hc] using hg
        · rwa [Nat.add_right_comm, Nat.add_assoc] at hm

end FileCopy

end JobConsole
