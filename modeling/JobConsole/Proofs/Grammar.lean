import Mathlib.Data.List.Forall2
import JobConsole.Proofs.Portions

namespace JobConsole

inductive Span
  /-- A line with its end, which only the last line of an input can lack. -/
  | line (bytes : List UInt8)
  /-- An error, and the bytes in front of it that no line end has followed. -/
  | fault (unfinished : List UInt8) (cause : String)

inductive Spans : List Item → List Span → Prop
  | nil : Spans [] []
  | line {body : List UInt8} {rest : List Item} {ss : List Span} (h : Line.newline ∉ body)
      (hr : Spans rest ss) :
      Spans ((body ++ [Line.newline]).map .byte ++ rest) (.line (body ++ [Line.newline]) :: ss)
  | fault {body : List UInt8} {cause : String} {rest : List Item} {ss : List Span}
      (h : Line.newline ∉ body) (hr : Spans rest ss) :
      Spans (body.map .byte ++ .fault cause :: rest) (.fault body cause :: ss)
  | last {body : List UInt8} (h : Line.newline ∉ body) (hb : body ≠ []) :
      Spans (body.map .byte) [.line body]

inductive Span.Gives : Span → Except Failure String → Prop
  /-- Nothing but line ends and blanks on both sides is left out. -/
  | text {left text right : List Char} (hl : ∀ c ∈ left, c ∈ ['\n', '\r', ' '])
      (hr : ∀ c ∈ right, c ∈ ['\n', '\r', ' ']) (hh : ∀ c ∈ text.head?, c ∉ ['\n', '\r', ' '])
      (ht : ∀ c ∈ text.getLast?, c ∉ ['\n', '\r', ' ']) :
      Gives (.line (Utf8.encode (left ++ text ++ right))) (.ok (String.ofList text))
  | garbled {bytes : List UInt8} {cause : String} (h : ∀ text, Utf8.encode text ≠ bytes) :
      Gives (.line bytes) (.error (.inputRead cause))
  | fault {unfinished : List UInt8} {cause : String} :
      Gives (.fault unfinished cause) (.error (.inputRead cause))

/-! What a line comes to. -/

namespace Line

theorem isMargin_iff {c : Char} : isMargin c = true ↔ c ∈ ['\n', '\r', ' '] := by
  simp [isMargin, or_assoc]

theorem isMargin_eq_false {c : Char} : isMargin c = false ↔ c ∉ ['\n', '\r', ' '] := by
  rw [← isMargin_iff, Bool.not_eq_true]

theorem head?_dropWhile_isMargin {text : List Char} :
    ∀ c ∈ (text.dropWhile isMargin).head?, c ∉ ['\n', '\r', ' '] := by
  intro c hc
  have hn := List.head?_dropWhile_not isMargin text
  rw [Option.mem_def.1 hc] at hn
  exact isMargin_eq_false.1 (by simpa using hn)

theorem trim_spec (text : List Char) : ∃ left right, text = left ++ trim text ++ right ∧
    (∀ c ∈ left, c ∈ ['\n', '\r', ' ']) ∧ (∀ c ∈ right, c ∈ ['\n', '\r', ' ']) ∧
      (∀ c ∈ (trim text).head?, c ∉ ['\n', '\r', ' ']) ∧
        ∀ c ∈ (trim text).getLast?, c ∉ ['\n', '\r', ' '] := by
  let tail := text.dropWhile isMargin
  let right := (tail.reverse.takeWhile isMargin).reverse
  have htail : tail = trim text ++ right := by
    rw [trim, ← List.reverse_append, List.takeWhile_append_dropWhile, List.reverse_reverse]
  refine ⟨text.takeWhile isMargin, right, ?_, fun c hc => ?_, fun c hc => ?_, fun c hc => ?_,
    fun c hc => ?_⟩
  · rw [List.append_assoc, ← htail, List.takeWhile_append_dropWhile]
  · exact isMargin_iff.1 (List.mem_takeWhile_imp hc)
  · exact isMargin_iff.1 (List.mem_takeWhile_imp (List.mem_reverse.1 hc))
  · apply @head?_dropWhile_isMargin text
    change c ∈ tail.head?
    rw [htail, List.head?_append, Option.mem_def.1 hc]
    rfl
  · rw [trim, List.getLast?_reverse] at hc
    exact head?_dropWhile_isMargin c hc

theorem gives_ofBytes (bytes : List UInt8) : (Span.line bytes).Gives (ofBytes bytes) := by
  unfold ofBytes
  cases hd : Utf8.decode bytes with
  | ok text =>
    obtain ⟨left, right, htext, hl, hr, hh, ht⟩ := trim_spec text.toList
    have hb : bytes = Utf8.encode (left ++ trim text.toList ++ right) := by
      rw [← htext, Utf8.decode_eq_ok_iff.1 hd]
    rw [hb]
    exact .text hl hr hh ht
  | error fault =>
    refine .garbled fun text ht => ?_
    have hok := (@Utf8.decode_eq_ok_iff bytes (String.ofList text)).2
      (by rwa [String.toList_ofList])
    rw [hok] at hd
    cases hd

end Line

/-! An input falls into spans in one way only. -/

def spansOf (unfinished : List UInt8) : List Item → List Span
  | [] => if unfinished = [] then [] else [.line unfinished]
  | .fault cause :: rest => .fault unfinished cause :: spansOf [] rest
  | .byte b :: rest =>
    if b = Line.newline then .line (unfinished ++ [b]) :: spansOf [] rest
    else spansOf (unfinished ++ [b]) rest

theorem spansOf_bytes {body unfinished : List UInt8} (h : Line.newline ∉ body) (rest : List Item) :
    spansOf unfinished (body.map .byte ++ rest) = spansOf (unfinished ++ body) rest := by
  induction body generalizing unfinished with
  | nil => simp
  | cons b body ih =>
    rw [List.mem_cons, not_or] at h
    rw [List.map_cons, List.cons_append, spansOf, if_neg (Ne.symm h.1), ih h.2, List.append_assoc]
    rfl

theorem Spans.eq_spansOf {input : List Item} {ss : List Span} (h : Spans input ss) :
    ss = spansOf [] input := by
  induction h with
  | nil => rfl
  | @line body rest ss hb _ ih =>
    rw [List.map_append, List.append_assoc, spansOf_bytes hb, ih]
    simp [spansOf]
  | @fault body cause rest ss hb _ ih =>
    rw [spansOf_bytes hb, ih]
    rfl
  | @last body hb hn =>
    have h := @spansOf_bytes body [] hb []
    rw [List.append_nil] at h
    rw [h]
    simp [spansOf, hn]

theorem spans_spansOf {unfinished : List UInt8} (h : Line.newline ∉ unfinished)
    (input : List Item) : Spans (unfinished.map .byte ++ input) (spansOf unfinished input) := by
  fun_induction spansOf unfinished input with
  | case1 => exact .nil
  | case2 unfinished hn =>
    rw [List.append_nil]
    exact .last h hn
  | case3 unfinished cause rest ih => exact .fault h (ih List.not_mem_nil)
  | case4 unfinished rest ih =>
    have hi : unfinished.map Item.byte ++ .byte Line.newline :: rest =
        (unfinished ++ [Line.newline]).map .byte ++ rest := by simp
    rw [hi]
    exact .line h (ih List.not_mem_nil)
  | case5 unfinished b rest hb ih =>
    have hi : unfinished.map Item.byte ++ .byte b :: rest =
        (unfinished ++ [b]).map .byte ++ rest := by simp
    rw [hi]
    exact ih (by simp [h, Ne.symm hb])

theorem spans_iff {input : List Item} {ss : List Span} :
    Spans input ss ↔ ss = spansOf [] input := by
  constructor
  · exact Spans.eq_spansOf
  · rintro rfl
    exact spans_spansOf List.not_mem_nil input

/-! So does its first read. -/

def firstOf (closed : Bool) (unfinished : List UInt8) :
    List Item → Option (Except Failure String × List Item)
  | [] =>
    if closed then
      some (if unfinished = [] then .error .inputClosed else Line.ofBytes unfinished, [])
    else none
  | .fault cause :: rest => some (.error (.inputRead cause), rest)
  | .byte b :: rest =>
    if b = Line.newline then some (Line.ofBytes (unfinished ++ [b]), rest)
    else firstOf closed (unfinished ++ [b]) rest

variable {closed : Bool} {input middle rest : List Item} {result : Except Failure String}
  {results : List (Except Failure String)} {ss : List Span}

theorem firstOf_bytes {body unfinished : List UInt8} (h : Line.newline ∉ body)
    (rest : List Item) : firstOf closed unfinished (body.map .byte ++ rest) =
      firstOf closed (unfinished ++ body) rest := by
  induction body generalizing unfinished with
  | nil => simp
  | cons b body ih =>
    rw [List.mem_cons, not_or] at h
    rw [List.map_cons, List.cons_append, firstOf, if_neg (Ne.symm h.1), ih h.2, List.append_assoc]
    rfl

theorem firstOf_unfinished {body : List UInt8} (h : Line.newline ∉ body) :
    firstOf closed [] (body.map .byte) = firstOf closed body [] := by
  have hb := @firstOf_bytes closed body [] h []
  rwa [List.append_nil] at hb

theorem Portion.firstOf_eq (h : Portion closed input result rest) :
    firstOf closed [] input = some (result, rest) := by
  cases h with
  | line hb =>
    rw [List.map_append, List.append_assoc, firstOf_bytes hb]
    rfl
  | fault hb =>
    rw [firstOf_bytes hb]
    rfl
  | last hb hn hc =>
    rw [firstOf_unfinished hb]
    simp [firstOf, hc, hn]
  | ended hc => simp [firstOf, hc]

/-! Successive reads. -/

inductive Portions (closed : Bool) : List Item → List (Except Failure String) → List Item → Prop
  | nil {input : List Item} : Portions closed input [] input
  | cons {input middle rest : List Item} {result : Except Failure String}
      {results : List (Except Failure String)} (h : Portion closed input result middle)
      (hr : Portions closed middle results rest) : Portions closed input (result :: results) rest

theorem Portions.append {more : List (Except Failure String)}
    (h : Portions closed input results middle) (g : Portions closed middle more rest) :
    Portions closed input (results ++ more) rest := by
  induction h with
  | nil => exact g
  | cons hp _ ih => exact .cons hp (ih g)

theorem Portions.take (h : Portions closed input results rest) (n : Nat) :
    ∃ middle, Portions closed input (results.take n) middle := by
  induction h generalizing n with
  | nil => exact ⟨_, by rw [List.take_nil]; exact .nil⟩
  | cons hp _ ih =>
    cases n with
    | zero => exact ⟨_, .nil⟩
    | succ n =>
      obtain ⟨middle, hm⟩ := ih n
      exact ⟨middle, .cons hp hm⟩

theorem portions_ended (n : Nat) :
    Portions true [] (List.replicate n (.error .inputClosed)) [] := by
  induction n with
  | zero => exact .nil
  | succ n ih => exact .cons (.ended rfl) ih

theorem Spans.portions (h : Spans input ss) :
    ∃ results, List.Forall₂ Span.Gives ss results ∧ Portions true input results [] := by
  induction h with
  | nil => exact ⟨[], .nil, .nil⟩
  | line hb _ ih =>
    obtain ⟨results, hg, hr⟩ := ih
    exact ⟨_, .cons (Line.gives_ofBytes _) hg, .cons (.line hb) hr⟩
  | fault hb _ ih =>
    obtain ⟨results, hg, hr⟩ := ih
    exact ⟨_, .cons .fault hg, .cons (.fault hb) hr⟩
  | last hb hn => exact ⟨_, .cons (Line.gives_ofBytes _) .nil, .cons (.last hb hn rfl) .nil⟩

theorem Source.items_feed (s : Source) (p : Piece) :
    itemsOf (s.feed p).pieces = itemsOf s.pieces ++ p.items :=
  LineReader.unread_feed ({ source := s } : LineReader Unit) p

theorem Source.closed_feed (s : Source) (p : Piece) : (s.feed p).closed = s.closed := by
  unfold feed
  split <;> rfl

theorem Source.feedAll (pieces : List Piece) (s : Source) :
    itemsOf (pieces.foldl feed s).pieces = itemsOf s.pieces ++ itemsOf pieces ∧
      (pieces.foldl feed s).closed = s.closed := by
  induction pieces generalizing s with
  | nil => simp [itemsOf]
  | cons p pieces ih =>
    rw [List.foldl_cons, (ih _).1, (ih _).2, items_feed, closed_feed, itemsOf_cons,
      List.append_assoc]
    exact ⟨rfl, rfl⟩

namespace LineReader

variable {ι : Type} {r : LineReader ι}

structure Free (r : LineReader ι) : Prop where
  owner : r.owner = none
  waiting : r.waiting = []

theorem collect_of_portion (h : r.Clean) (hp : Portion r.source.closed r.unread result rest)
    (i : ι) : (r.collect i).result = some result ∧ (r.collect i).reader.unread = rest := by
  have hf := hp.firstOf_eq
  have hg : Gathers r.source.closed r.unread (gather r.source.closed r.taken r.source.pieces) :=
    gather_gathers h
  have hrest := @gather_rest r.source.closed r.taken r.source.pieces
  unfold collect
  dsimp only
  generalize gather r.source.closed r.taken r.source.pieces = g at hg hrest ⊢
  cases hg with
  | done hr =>
    rw [hr.firstOf_eq] at hf
    obtain ⟨hx, hy⟩ := Prod.mk.inj (Option.some.inj hf)
    exact ⟨congrArg some hx, hy⟩
  | rested hn hi =>
    rw [hi, (hrest rfl).2, firstOf_unfinished hn] at hf
    cases hf

variable [DecidableEq ι]

def reads (r : LineReader ι) (i : ι) : Nat → List (Option (Except Failure String))
  | 0 => []
  | n + 1 => (r.resume i).result :: (r.resume i).reader.reads i n

theorem resume_of_portion (hc : r.Clean) (hf : r.Free)
    (hp : Portion r.source.closed r.unread result rest) (i : ι) :
    (r.resume i).result = some result ∧ (r.resume i).reader.unread = rest ∧
      (r.resume i).reader.source.closed = r.source.closed ∧ (r.resume i).reader.Clean ∧
        (r.resume i).reader.Free := by
  have he : r.resume i = r.collect i := by simp only [resume, hf.owner]
  obtain ⟨hr, hu⟩ := collect_of_portion hc hp i
  rw [← he] at hr hu
  refine ⟨hr, hu, ?_, hc.resume i, ?_⟩
  · cases resume_takes hc i with
    | done _ _ _ hs => exact hs
    | rested _ _ _ hs => exact hs
  · have hw := (done_line hr).2
    rw [hf.waiting] at hw
    have hm := resume_resumption r i
    generalize r.resume i = p at hr hm hw ⊢
    cases hm with
    | done _ hw' => exact ⟨hw, by simp [release, hw', hf.waiting]⟩
    | _ => cases hr

theorem reads_of_portions (hc : r.Clean) (hf : r.Free)
    (hp : Portions r.source.closed r.unread results rest) (i : ι) :
    r.reads i results.length = results.map some := by
  induction results generalizing r with
  | nil => rfl
  | cons result results ih =>
    cases hp with
    | cons h hr =>
      obtain ⟨hresult, hu, hs, hc', hf'⟩ := resume_of_portion hc hf h i
      rw [List.length_cons, reads, hresult, ih hc' hf' (by rwa [hu, hs])]
      rfl

/-- Reading an input that has ended, again and again, gives what its spans give and then that it is
closed. Where the input was cut into pieces makes no difference. -/
theorem reads_of_closed (pieces : List Piece) : ∃ ss results,
    (∀ ss', Spans (itemsOf pieces) ss' ↔ ss' = ss) ∧ List.Forall₂ Span.Gives ss results ∧
      ∀ pieces', itemsOf pieces' = itemsOf pieces → ∀ (i : ι) (n : Nat),
        reads { source := .ofPieces pieces' true } i n =
          ((results ++ List.replicate n (Except.error Failure.inputClosed)).take n).map some := by
  obtain ⟨results, hg, hp⟩ := (spans_spansOf List.not_mem_nil (itemsOf pieces)).portions
  refine ⟨spansOf [] (itemsOf pieces), results, fun _ => spans_iff, hg, fun pieces' he i n => ?_⟩
  obtain ⟨hitems, hclosed⟩ := Source.feedAll pieces' { closed := true }
  let r : LineReader ι := { source := .ofPieces pieces' true }
  have hu : r.unread = itemsOf pieces := he ▸ hitems
  have hc : r.source.closed = true := hclosed
  obtain ⟨middle, hm⟩ := (hp.append (portions_ended n)).take n
  rw [List.map_nil, List.nil_append, ← hu, ← hc] at hm
  have hclean : r.Clean := List.not_mem_nil
  have hr := reads_of_portions hclean ⟨rfl, rfl⟩ hm i
  rwa [List.length_take, List.length_append, List.length_replicate,
    Nat.min_eq_left (Nat.le_add_left _ _)] at hr

/-- A character and a line end in two pieces each, a line that is no text, an error in the middle of
a line, and a last line without an end. -/
def torn : List Piece :=
  [.bytes [0x20, 0xC3], .bytes [0xA9, 0x0D], .bytes [0x0A, 0xFF, 0x0A, 0x79], .fault "gone",
    .bytes [0x0A, 0x6E, 0x6F]]

def whole : List Piece :=
  [.bytes [0x20, 0xC3, 0xA9, 0x0D, 0x0A, 0xFF, 0x0A, 0x79], .fault "gone",
    .bytes [0x0A, 0x6E, 0x6F]]

theorem reads_of_torn : itemsOf whole = itemsOf torn ∧ ∃ ss results,
    (∀ ss', Spans (itemsOf torn) ss' ↔ ss' = ss) ∧ List.Forall₂ Span.Gives ss results ∧
      reads { source := .ofPieces torn true } () 7 =
        ((results ++ List.replicate 7 (Except.error Failure.inputClosed)).take 7).map some ∧
      reads { source := .ofPieces whole true } () 7 =
        ((results ++ List.replicate 7 (Except.error Failure.inputClosed)).take 7).map some := by
  obtain ⟨ss, results, hs, hg, hr⟩ := @reads_of_closed Unit _ torn
  exact ⟨rfl, ss, results, hs, hg, hr torn rfl () 7, hr whole rfl () 7⟩

example : reads { source := .ofPieces torn true } () 6 =
    [some (.ok "é"), some (.error (.inputRead "invalid utf-8 sequence of 1 bytes from index 0")),
      some (.error (.inputRead "gone")), some (.ok ""), some (.ok "no"),
      some (.error .inputClosed)] := by
  decide +kernel

end LineReader

end JobConsole
