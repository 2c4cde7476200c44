import Mathlib.Data.List.SplitBy
import JobConsole.Proofs.Succession

/-!
Losses: a read that is given up in the middle of a line takes along what it has of it. Whatever
reads are given up, the lines that are told are those of the input in order, less such bytes at
their front; where none was given up in the middle of a line, they are whole.
-/

namespace JobConsole

/-! The lines of a text and those of its bytes. -/

section Lines

variable {α : Type} [DecidableEq α] {stop : α} {body rest : List α}

/-- The lines of a list, each with the stop that ends it, which the last one may lack. -/
def linesAt (stop : α) (xs : List α) : List (List α) :=
  xs.splitBy fun x _ => x ≠ stop

theorem isChain_line (h : stop ∉ body) (tail : List α) (ht : tail.length ≤ 1) :
    (body ++ tail).IsChain fun x _ => decide (x ≠ stop) = true := by
  induction body with
  | nil =>
    match tail, ht with
    | [], _ => exact .nil
    | [x], _ => exact .singleton x
  | cons x body ih =>
    rw [List.mem_cons, not_or] at h
    exact List.isChain_cons.2 ⟨fun _ _ => decide_eq_true (Ne.symm h.1), ih h.2⟩

theorem linesAt_line (h : stop ∉ body) (rest : List α) :
    linesAt stop (body ++ [stop] ++ rest) = (body ++ [stop]) :: linesAt stop rest := by
  unfold linesAt
  rw [List.splitBy_append (by simp),
    List.splitBy_of_isChain (by simp) (isChain_line h [stop] le_rfl)]
  rfl

theorem linesAt_last (h : stop ∉ body) (hb : body ≠ []) : linesAt stop body = [body] := by
  have hc := isChain_line h [] (Nat.zero_le 1)
  rw [List.append_nil] at hc
  exact List.splitBy_of_isChain hb hc

theorem lines_cases (stop : α) (xs : List α) : stop ∉ xs ∨
    ∃ body rest, stop ∉ body ∧ xs = body ++ [stop] ++ rest := by
  by_cases h : stop ∈ xs
  · obtain ⟨body, rest, rfl, hb⟩ := List.eq_append_cons_of_mem h
    exact .inr ⟨body, rest, hb, by simp⟩
  · exact .inl h

end Lines

theorem newline_mem_utf8EncodeChar {c : Char} :
    Line.newline ∈ String.utf8EncodeChar c ↔ c = '\n' := by
  -- All bytes of a character that has several are above those of ASCII.
  have hhigh {n : Nat} (h : 128 ≤ n) (hn : n < 256) : Line.newline ≠ UInt8.ofNat n := by
    intro he
    have hv := congrArg UInt8.toNat he
    rw [UInt8.toNat_ofNat_of_lt' hn] at hv
    simp only [Line.newline, UInt8.reduceToNat] at hv
    omega
  have hc : c = '\n' ↔ c.val.toNat = 10 := by
    rw [← Char.val_inj, ← UInt32.toNat_inj]
    rfl
  rw [hc]
  unfold String.utf8EncodeChar
  dsimp only
  split
  · have hlt : c.val.toNat < UInt8.size := by
      change c.val.toNat < 256
      omega
    rw [List.mem_singleton, ← UInt8.toNat_inj, UInt8.toNat_ofNat_of_lt' hlt]
    exact eq_comm
  · rename_i hv
    split
    · refine iff_of_false (fun hm => ?_) (by omega)
      simp only [List.mem_cons, List.not_mem_nil, or_false] at hm
      rcases hm with hm | hm <;> exact hhigh (by omega) (by omega) hm
    · split
      · refine iff_of_false (fun hm => ?_) (by omega)
        simp only [List.mem_cons, List.not_mem_nil, or_false] at hm
        rcases hm with hm | hm | hm <;> exact hhigh (by omega) (by omega) hm
      · refine iff_of_false (fun hm => ?_) (by omega)
        simp only [List.mem_cons, List.not_mem_nil, or_false] at hm
        rcases hm with hm | hm | hm | hm <;> exact hhigh (by omega) (by omega) hm

theorem newline_mem_encode {text : List Char} :
    Line.newline ∈ Utf8.encode text ↔ '\n' ∈ text := by
  simp [Utf8.encode, newline_mem_utf8EncodeChar]

theorem linesAt_encode (text : List Char) :
    linesAt Line.newline (Utf8.encode text) = (linesAt '\n' text).map Utf8.encode := by
  induction hn : text.length using Nat.strong_induction_on generalizing text with
  | _ n ih =>
    rcases lines_cases '\n' text with h | ⟨body, rest, h, rfl⟩
    · cases text with
      | nil => rfl
      | cons c text =>
        have hb : Utf8.encode (c :: text) ≠ [] := by
          rw [Utf8.encode, List.flatMap_cons]
          exact List.append_ne_nil_of_left_ne_nil String.utf8EncodeChar_ne_nil _
        rw [linesAt_last h (List.cons_ne_nil c text), linesAt_last (mt newline_mem_encode.1 h) hb]
        rfl
    · have hr := ih rest.length (by rw [← hn]; simp; omega) rest rfl
      have he : Utf8.encode ['\n'] = [Line.newline] := rfl
      rw [linesAt_line h, List.map_cons, ← hr, Utf8.encode_append, Utf8.encode_append, he,
        linesAt_line (mt newline_mem_encode.1 h)]

theorem Line.ofBytes_encode (text : List Char) :
    Line.ofBytes (Utf8.encode text) = .ok (String.ofList (Line.trim text)) := by
  have h := (@Utf8.decode_eq_ok_iff (Utf8.encode text) (String.ofList text)).2
    (by rw [String.toList_ofList])
  unfold Line.ofBytes
  rw [h]
  simp

/-! Reads with losses. -/

variable {closed : Bool} {input middle rest : List Item} {result : Except Failure String}
  {results : List (Except Failure String)} {lost more : List UInt8}

/-- The results of some reads, one after the other, where bytes of unfinished lines were lost in
front of some of them, and what they leave of the input. -/
inductive Ragged (closed : Bool) :
    List Item → List UInt8 → List (Except Failure String) → List Item → Prop
  | nil {input : List Item} : Ragged closed input [] [] input
  | loss {front lost : List UInt8} {input rest : List Item}
      {results : List (Except Failure String)} (h : Line.newline ∉ front)
      (hr : Ragged closed input lost results rest) :
      Ragged closed (front.map .byte ++ input) (front ++ lost) results rest
  | cons {lost : List UInt8} {input middle rest : List Item} {result : Except Failure String}
      {results : List (Except Failure String)} (h : Portion closed input result middle)
      (hr : Ragged closed middle lost results rest) :
      Ragged closed input lost (result :: results) rest

namespace Ragged

theorem append {results' : List (Except Failure String)}
    (h : Ragged closed input lost results middle)
    (g : Ragged closed middle more results' rest) :
    Ragged closed input (lost ++ more) (results ++ results') rest := by
  induction h with
  | nil => exact g
  | loss hn _ ih =>
    rw [List.append_assoc]
    exact .loss hn (ih g)
  | cons hp _ ih => exact .cons hp (ih g)

theorem extend (h : Ragged false input lost results rest) (closed : Bool) (more : List Item) :
    Ragged closed (input ++ more) lost results (rest ++ more) := by
  induction h with
  | nil => exact .nil
  | loss hn _ ih =>
    rw [List.append_assoc]
    exact .loss hn ih
  | cons hp _ ih => exact .cons (hp.extend closed more) ih

theorem of_nil (h : Ragged closed [] lost results rest) :
    lost = [] ∧ ∃ n, results = List.replicate n (.error .inputClosed) ∧ (0 < n → closed = true) := by
  generalize hi : ([] : List Item) = input at h
  induction h with
  | nil => exact ⟨rfl, 0, rfl, nofun⟩
  | loss hn _ ih =>
    obtain ⟨hf, hi⟩ := List.append_eq_nil_iff.1 hi.symm
    obtain ⟨rfl, hr⟩ := ih hi.symm
    exact ⟨by simpa using hf, hr⟩
  | cons hp _ ih =>
    subst hi
    generalize hi : ([] : List Item) = input at hp
    cases hp with
    | line => simp at hi
    | fault => simp at hi
    | last hn hb => exact absurd (List.map_eq_nil_iff.1 hi.symm) hb
    | ended hc =>
      obtain ⟨rfl, n, rfl, hn⟩ := ih rfl
      exact ⟨rfl, n + 1, rfl, fun _ => hc⟩

end Ragged

structure Telling where
  front : List UInt8
  back : List UInt8

def Telling.line (t : Telling) : List UInt8 :=
  t.front ++ t.back

/-- What reads have told of the lines of an input, with what was lost in between: each line in
turn, and `n` times that the input is closed. -/
structure LinesTold (lines : List (List UInt8)) (lost : List UInt8) (closed : Bool)
    (told : List Telling) (n : Nat) (results : List (Except Failure String)) : Prop where
  gives : results =
    told.map (fun t => Line.ofBytes t.back) ++ List.replicate n (.error .inputClosed)
  follows : told.map Telling.line <+: lines
  fronts : told.flatMap Telling.front <+: lost
  opened : closed = false → n = 0 ∧ ∀ t ∈ told, Line.newline ∈ t.back
  /-- When the end is reported, only a last line without an end can be missing, lost altogether. -/
  ended : 0 < n → ∃ tail, Line.newline ∉ tail ∧ lost = told.flatMap Telling.front ++ tail ∧
    lines = told.map Telling.line ++ linesAt Line.newline tail

namespace LinesTold

variable {lines : List (List UInt8)} {front body : List UInt8} {told : List Telling} {n : Nat}

theorem none : LinesTold lines lost closed [] 0 [] :=
  ⟨rfl, List.nil_prefix, List.nil_prefix, fun _ => ⟨rfl, nofun⟩, nofun⟩

theorem cons (h : LinesTold lines lost closed told n results) (t : Telling)
    (ht : closed = false → Line.newline ∈ t.back) :
    LinesTold (t.line :: lines) (t.front ++ lost) closed (t :: told) n
      (Line.ofBytes t.back :: results) := by
  refine ⟨congrArg _ h.gives, List.cons_prefix_cons.2 ⟨rfl, h.follows⟩,
    (List.prefix_append_right_inj _).2 h.fronts, fun hc => ?_, fun hn => ?_⟩
  · obtain ⟨hn, hb⟩ := h.opened hc
    exact ⟨hn, List.forall_mem_cons.2 ⟨ht hc, hb⟩⟩
  · obtain ⟨tail, htail, hl, hlines⟩ := h.ended hn
    refine ⟨tail, htail, ?_, ?_⟩
    · rw [hl, List.flatMap_cons, List.append_assoc]
    · rw [hlines, List.map_cons, List.cons_append]

theorem exhausted (h : Line.newline ∉ front) (hc : 0 < n → closed = true) :
    LinesTold (linesAt Line.newline front) front closed [] n
      (List.replicate n (.error .inputClosed)) := by
  refine ⟨rfl, List.nil_prefix, List.nil_prefix, fun ho => ⟨?_, nofun⟩,
    fun _ => ⟨front, h, rfl, rfl⟩⟩
  by_contra hn
  exact absurd (ho.symm.trans (hc (Nat.pos_of_ne_zero hn))) Bool.false_ne_true

theorem whole (h : LinesTold lines [] closed told n results) :
    told.map Telling.back = lines.take told.length ∧ (0 < n → told.length = lines.length) := by
  have hfront : ∀ t ∈ told, t.front = [] := List.flatMap_eq_nil_iff.1 (List.prefix_nil.1 h.fronts)
  have hback : told.map Telling.line = told.map Telling.back :=
    List.map_congr_left fun t ht => by rw [Telling.line, hfront t ht, List.nil_append]
  refine ⟨?_, fun hn => ?_⟩
  · rw [← hback]
    simpa using List.prefix_iff_eq_take.1 h.follows
  · obtain ⟨tail, -, hl, hlines⟩ := h.ended hn
    obtain rfl : tail = [] := (List.append_eq_nil_iff.1 hl.symm).2
    rw [hlines]
    simp [linesAt]

end LinesTold

theorem byte_injective : Function.Injective Item.byte :=
  fun _ _ => Item.byte.inj

theorem map_byte_eq_append {bytes front : List UInt8}
    (h : bytes.map Item.byte = front.map .byte ++ rest) :
    ∃ tail, bytes = front ++ tail ∧ rest = tail.map .byte := by
  obtain ⟨head, tail, rfl, hh, rfl⟩ := List.map_eq_append_iff.1 h
  obtain rfl := List.map_injective_iff.2 byte_injective hh
  exact ⟨tail, rfl, rfl⟩

theorem Ragged.linesTold {front bytes : List UInt8}
    (h : Ragged closed (bytes.map .byte) lost results rest) (hf : Line.newline ∉ front) :
    ∃ told n, LinesTold (linesAt Line.newline (front ++ bytes)) (front ++ lost) closed told n
      results := by
  generalize hi : bytes.map Item.byte = input at h
  induction h generalizing front bytes with
  | nil => exact ⟨[], 0, .none⟩
  | @loss more lost input rest results hm _ ih =>
    obtain ⟨bytes, rfl, rfl⟩ := map_byte_eq_append hi
    have hfm : Line.newline ∉ front ++ more := by simp [hf, hm]
    rw [← List.append_assoc, ← List.append_assoc]
    exact ih hfm rfl
  | cons hp hr ih =>
    cases hp with
    | @line body _ hb =>
      obtain ⟨bytes, rfl, rfl⟩ := map_byte_eq_append hi
      obtain ⟨told, n, ht⟩ := ih List.not_mem_nil rfl
      have hfb : Line.newline ∉ front ++ body := by simp [hf, hb]
      have hc := ht.cons ⟨front, body ++ [Line.newline]⟩ fun _ => by simp
      have hl := linesAt_line hfb bytes
      simp only [List.append_assoc] at hl ⊢
      rw [hl]
      exact ⟨_, n, hc⟩
    | fault hb =>
      obtain ⟨bytes, rfl, hi⟩ := map_byte_eq_append hi
      cases bytes <;> simp at hi
    | @last body hb hne hc =>
      obtain rfl := List.map_injective_iff.2 byte_injective hi
      obtain ⟨rfl, n, rfl, hn⟩ := hr.of_nil
      have hfb : Line.newline ∉ front ++ bytes := by simp [hf, hb]
      have ht := (LinesTold.exhausted List.not_mem_nil hn).cons ⟨front, bytes⟩
        fun ho => absurd (ho.symm.trans hc) Bool.false_ne_true
      rw [linesAt_last hfb (List.append_ne_nil_of_right_ne_nil _ hne)]
      exact ⟨_, n, ht⟩
    | ended hc =>
      obtain rfl := List.map_eq_nil_iff.1 hi
      obtain ⟨rfl, n, rfl, -⟩ := hr.of_nil
      rw [List.append_nil]
      exact ⟨[], n + 1, .exhausted hf fun _ => hc⟩

/-! The reads of a line reader. -/

namespace LineReader

variable {ι : Type} {r : LineReader ι} {i : ι} {s : Source}

structure Yielded (s : Source) (lost : List UInt8) (results : List (Except Failure String))
    (r : LineReader ι) : Prop where
  clean : r.Clean
  closed : r.source.closed = s.closed
  ragged : Ragged s.closed (itemsOf s.pieces) lost results r.unread

theorem Yielded.feed (h : r.Yielded s lost results) (hc : s.closed = false) (p : Piece) :
    Yielded (s.feed p) lost results { r with source := r.source.feed p } := by
  have hr := h.ragged
  rw [hc] at hr
  refine ⟨h.clean, ?_, ?_⟩
  · rw [s.closed_feed, ← h.closed]
    exact r.source.closed_feed p
  · rw [unread_feed, s.items_feed]
    exact hr.extend _ p.items

theorem Yielded.close (h : r.Yielded s lost results) :
    Yielded s.close lost results { r with source := r.source.close } := by
  refine ⟨h.clean, rfl, ?_⟩
  have hr := h.ragged
  cases hc : s.closed with
  | true =>
    rw [hc] at hr
    exact hr
  | false =>
    rw [hc] at hr
    have he := hr.extend true []
    rwa [List.append_nil, List.append_nil] at he

variable [DecidableEq ι]

def shed (r : LineReader ι) (i : ι) : List UInt8 :=
  if r.owner = some i then r.taken else []

theorem Yielded.resume (h : r.Yielded s lost results) (i : ι) :
    Yielded s lost (results ++ (r.resume i).result.toList) (r.resume i).reader := by
  have ha {rest : List Item} {results' : List (Except Failure String)}
      (hr : Ragged s.closed r.unread [] results' rest) :
      Ragged s.closed (itemsOf s.pieces) lost (results ++ results') rest := by
    have ha := h.ragged.append hr
    rwa [List.append_nil] at ha
  cases resume_takes h.clean i with
  | done hr hp hc hs =>
    rw [h.closed] at hp hs
    rw [hr]
    exact ⟨hc, hs, ha (.cons hp .nil)⟩
  | rested hr hu hc hs =>
    rw [hr]
    exact ⟨hc, hs.trans h.closed, ha (hu ▸ .nil)⟩

theorem unread_shed (r : LineReader ι) (i : ι) :
    r.unread = (r.shed i).map .byte ++ (r.abandon i).1.unread := by
  unfold shed
  split
  · rename_i ho
    unfold abandon
    rw [if_pos ho]
    rfl
  · rename_i ho
    exact (unread_abandon ho).symm

theorem Yielded.abandon (h : r.Yielded s lost results) (i : ι) :
    Yielded s (lost ++ r.shed i) results (r.abandon i).1 := by
  have hn : Line.newline ∉ r.shed i := by
    unfold shed
    split
    · exact h.clean
    · exact List.not_mem_nil
  refine ⟨h.clean.abandon i, (congrArg _ (source_abandon r i)).trans h.closed, ?_⟩
  have hl : Ragged s.closed r.unread (r.shed i ++ []) [] (r.abandon i).1.unread := by
    rw [unread_shed r i]
    exact .loss hn .nil
  simpa using h.ragged.append hl

end LineReader

namespace OpenReads

open LineReader

variable {o : OpenReads} {s : Step} {steps : List Step} {source : Source}

def shed (o : OpenReads) : Step → List UInt8
  | .read => (o.reader.resume none).reader.shed none
  | .abandon n => o.reader.shed (some n)
  | _ => []

/-- All that is lost of the input: what was taken by reads that were given up. -/
def losses (o : OpenReads) : List Step → List UInt8
  | [] => []
  | s :: steps => o.shed s ++ (o.step s).1.losses steps

def feedsInTime (source : Source) : List Step → Bool
  | [] => true
  | .feed p :: steps => !source.closed && feedsInTime (source.feed p) steps
  | s :: steps => feedsInTime (s.onSource source) steps

theorem feedsInTime_cons (h : feedsInTime source (s :: steps) = true) :
    (∀ p, s = .feed p → source.closed = false) ∧ feedsInTime (s.onSource source) steps = true := by
  cases s with
  | feed p =>
    simp only [feedsInTime, Bool.and_eq_true, Bool.not_eq_true'] at h
    exact ⟨fun _ _ => h.1, h.2⟩
  | _ => exact ⟨nofun, h⟩

theorem yielded_step (h : o.reader.Yielded source lost results)
    (hs : ∀ p, s = .feed p → source.closed = false) :
    (o.step s).1.reader.Yielded (s.onSource source) (lost ++ o.shed s)
      (results ++ (o.step s).2.result?.toList) := by
  cases s with
  | feed piece =>
    simpa [OpenReads.step, Step.onSource, Answer.result?, shed] using h.feed (hs piece rfl) piece
  | close => simpa [OpenReads.step, Step.onSource, Answer.result?, shed] using h.close
  | read =>
    have hr := (h.resume none).abandon none
    simpa [OpenReads.step, Step.onSource, resumeOnce, shed] using hr
  | begin n =>
    unfold OpenReads.step
    dsimp only
    split <;> simpa [Step.onSource, Answer.result?, shed] using h
  | resume n =>
    unfold OpenReads.step
    dsimp only
    split
    · simpa [Step.onSource, resumeOnce, shed] using h.resume (some n)
    · simpa [Step.onSource, Answer.result?, shed] using h
  | abandon n =>
    unfold OpenReads.step
    dsimp only
    split
    · simpa [Step.onSource, Answer.result?, shed] using h.abandon (some n)
    · rename_i ho
      -- A read that is not open does not have the lock either.
      have hn : o.reader.shed (some n) = [] := if_neg fun hx => ho (by simp [isOpen, isReading, hx])
      simpa [Step.onSource, Answer.result?, shed, hn] using h

theorem yielded_run (h : o.reader.Yielded source lost results)
    (hs : feedsInTime source steps = true) : ∃ reader : LineReader (Option Nat),
      reader.Yielded (steps.foldl Step.onSource source) (lost ++ o.losses steps)
        (results ++ (o.run steps).filterMap Answer.result?) := by
  induction steps generalizing o source lost results with
  | nil => exact ⟨o.reader, by simpa [run, losses] using h⟩
  | cons s steps ih =>
    obtain ⟨hf, hs⟩ := feedsInTime_cons hs
    obtain ⟨reader, hr⟩ := ih (yielded_step h hf) hs
    refine ⟨reader, ?_⟩
    rw [List.append_assoc, List.append_assoc] at hr
    rw [run, List.filterMap_cons, losses]
    cases hres : (o.step s).2.result? with
    | none => simpa [hres] using hr
    | some result => simpa [hres] using hr

/-- What reads tell of a text: its lines in order, some of them without bytes at their front that
were taken by reads that were given up. Where no such bytes are lost, the lines are whole. -/
theorem linesTold_of_run (source : Source) (steps : List Step) (text : List Char)
    (htext : itemsOf (steps.foldl Step.onSource source).pieces = (Utf8.encode text).map .byte)
    (hfed : feedsInTime source steps = true) :
    let o : OpenReads := { reader := { source } }
    let results := (o.run steps).filterMap Answer.result?
    let closed := (steps.foldl Step.onSource source).closed
    let lines := linesAt '\n' text
    (∃ told n, LinesTold (lines.map Utf8.encode) (o.losses steps) closed told n results) ∧
      (o.losses steps = [] → ∃ k n,
        results = (lines.take k).map (fun l => .ok (String.ofList (Line.trim l))) ++
          List.replicate n (.error .inputClosed) ∧
        (closed = false → n = 0 ∧ ∀ l ∈ lines.take k, '\n' ∈ l) ∧
        (0 < n → lines.take k = lines)) := by
  intro o results closed lines
  have h₀ : o.reader.Yielded source [] [] := ⟨List.not_mem_nil, rfl, .nil⟩
  obtain ⟨reader, hy⟩ := yielded_run h₀ hfed
  have hr := hy.ragged
  rw [htext, List.nil_append, List.nil_append] at hr
  obtain ⟨told, n, ht⟩ := hr.linesTold List.not_mem_nil
  rw [List.nil_append, List.nil_append, linesAt_encode] at ht
  refine ⟨⟨told, n, ht⟩, fun hl => ?_⟩
  rw [hl] at ht
  obtain ⟨hback, hlength⟩ := ht.whole
  rw [← List.map_take] at hback
  refine ⟨told.length, n, ?_, fun hc => ?_, fun hn => ?_⟩
  · have hwhole : told.map (fun t => Line.ofBytes t.back) =
        (lines.take told.length).map fun l => .ok (String.ofList (Line.trim l)) := by
      calc told.map (fun t => Line.ofBytes t.back)
          = (told.map Telling.back).map Line.ofBytes := by rw [List.map_map]; rfl
        _ = ((lines.take told.length).map Utf8.encode).map Line.ofBytes := by rw [hback]
        _ = _ := by simp only [List.map_map, Function.comp_def, Line.ofBytes_encode]
    rw [← hwhole]
    exact ht.gives
  · obtain ⟨hn, hends⟩ := ht.opened hc
    refine ⟨hn, fun l hm => newline_mem_encode.1 ?_⟩
    have hm : Utf8.encode l ∈ told.map Telling.back := hback ▸ List.mem_map_of_mem hm
    obtain ⟨t, ht, he⟩ := List.mem_map.1 hm
    exact he ▸ hends t ht
  · rw [hlength hn, List.length_map, List.take_length]

def lossless : List Step :=
  [.begin 1, .begin 2, .begin 3, .resume 1, .resume 2, .resume 3, .abandon 2,
    .feed (.bytes [0x61, 0xC3]), .read, .resume 1, .feed (.bytes [0xA9, 0x0D]), .begin 4,
    .abandon 4, .feed (.bytes [0x0A, 0x62]), .resume 1, .abandon 3, .close, .read, .read]

theorem linesTold_of_lossless :
    let o : OpenReads := { reader := { source := {} } }
    let results := (o.run lossless).filterMap Answer.result?
    let lines := linesAt '\n' "aé\r\nb".toList
    o.losses lossless = [] ∧ ∃ k n,
      results = (lines.take k).map (fun l => .ok (String.ofList (Line.trim l))) ++
        List.replicate n (.error .inputClosed) ∧ (0 < n → lines.take k = lines) := by
  intro o results lines
  have htext : itemsOf (lossless.foldl Step.onSource {}).pieces =
      (Utf8.encode "aé\r\nb".toList).map .byte := by rfl
  have hl : o.losses lossless = [] := by decide +kernel
  obtain ⟨-, hwhole⟩ := linesTold_of_run {} lossless _ htext (by decide +kernel)
  obtain ⟨k, n, hr, -, hn⟩ := hwhole hl
  exact ⟨hl, k, n, hr, hn⟩

def halved : List Step :=
  [.feed (.bytes [0x61, 0x62]), .read, .feed (.bytes [0x63, 0x64, 0x0A]), .read]

theorem halved_not_whole :
    let o : OpenReads := { reader := { source := {} } }
    let results := (o.run halved).filterMap Answer.result?
    let lines := linesAt '\n' "abcd\n".toList
    itemsOf (halved.foldl Step.onSource {}).pieces = (Utf8.encode "abcd\n".toList).map .byte ∧
      feedsInTime {} halved = true ∧ results = [.ok "cd"] ∧
        ¬ ∃ k n, results = (lines.take k).map (fun l => .ok (String.ofList (Line.trim l))) ++
          List.replicate n (.error .inputClosed) := by
  intro o results lines
  have hr : results = [.ok "cd"] := by decide +kernel
  have hl : lines.map (fun l => String.ofList (Line.trim l)) = ["abcd"] := by decide +kernel
  refine ⟨by rfl, by decide +kernel, hr, ?_⟩
  rintro ⟨k, n, he⟩
  have hm : Except.ok "cd" ∈ results := hr ▸ List.mem_singleton_self _
  rw [he] at hm
  rcases List.mem_append.1 hm with hm | hm
  · obtain ⟨l, hmem, h⟩ := List.mem_map.1 hm
    have hmem := List.mem_map_of_mem (f := fun l => String.ofList (Line.trim l))
      (List.mem_of_mem_take hmem)
    rw [hl, Except.ok.inj h] at hmem
    simp at hmem
  · exact absurd (List.eq_of_mem_replicate hm) nofun

end OpenReads

end JobConsole
