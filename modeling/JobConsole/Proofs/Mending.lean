import JobConsole.Proofs.Residue
import JobConsole.Proofs.Retention

/-!
Mending: a write that fails leaves the front of a text on the screen, while the progress line stays
what it was. The next progress text that is written completely covers what is left of both exactly
if nothing longer is seen.
-/

namespace JobConsole

namespace Utf8

theorem prefix_of_encode {xs ys : List Char} (h : encode xs <+: encode ys) : xs <+: ys := by
  induction xs generalizing ys with
  | nil => exact List.nil_prefix
  | cons x xs ih =>
    obtain ⟨rest, h⟩ := h
    have hx : encode (x :: xs) = String.utf8EncodeChar x ++ encode xs := List.flatMap_cons
    rw [hx, List.append_assoc] at h
    cases ys with
    | nil => exact absurd (List.append_eq_nil_iff.1 h).1 String.utf8EncodeChar_ne_nil
    | cons y ys =>
      have hy : encode (y :: ys) = String.utf8EncodeChar y ++ encode ys := List.flatMap_cons
      rw [hy] at h
      have hfirst := congrArg (fun bytes => ByteArray.utf8DecodeChar? bytes.toByteArray 0) h
      simp only [List.toByteArray_append, ByteArray.utf8DecodeChar?_utf8EncodeChar_append,
        Option.some.injEq] at hfirst
      subst hfirst
      exact (List.prefix_cons_inj _).2 (ih ⟨rest, List.append_cancel_left h⟩)

end Utf8

theorem IsPlain.front {xs ys : List Char} (hy : IsPlain ys) (h : xs <+: ys) : IsPlain xs :=
  ⟨fun hr => hy.1 (h.subset hr), fun hn => hy.2 (h.subset hn)⟩

namespace Screen

variable {s s' : Screen} {line text cells front : List Char} {kind : Kind}

/-- Drawing the front of a text that is no longer than the line leaves nothing to be seen beyond the
line. -/
theorem within_of_overwrite (hs : (visible s.last).length ≤ line.length) (ht : IsPlain text)
    (hlen : text.length ≤ line.length) (hc : Display.overwrite line text = some cells)
    (hf : front <+: cells) : (visible (s.write front).last).length ≤ line.length := by
  obtain rfl := Display.eq_of_overwrite hc
  rw [List.cons_append, List.prefix_cons_iff] at hf
  rcases hf with rfl | ⟨drawn, rfl, hd⟩
  · exact hs
  · have hlen : drawn.length ≤ line.length := by
      have hl := hd.length_le
      simp only [List.length_append, List.length_replicate, Display.pad] at hl
      omega
    have hlast : (s.write ('\r' :: drawn)).last = drawn ++ s.last.drop drawn.length := by
      rw [write_return, write_plain ((ht.append (isPlain_blanks _)).front hd)]
      rfl
    rw [length_visible_le_iff] at hs ⊢
    rwa [hlast, List.drop_append, List.drop_eq_nil_of_le hlen, List.nil_append, List.drop_drop,
      Nat.add_sub_cancel' hlen]

theorem within_of_newline (hdrawn : ∀ front, front <+: cells →
      (visible (s.write front).last).length ≤ line.length) (hline : IsPlain line)
    (hf : front <+: cells ++ '\n' :: line) :
    (visible (s.write front).last).length ≤ line.length := by
  rcases List.prefix_or_prefix_of_prefix hf (List.prefix_append cells _) with h | ⟨rest, rfl⟩
  · exact hdrawn front h
  · rw [List.prefix_append_right_inj, List.prefix_cons_iff] at hf
    rcases hf with rfl | ⟨again, rfl, ha⟩
    · rw [List.append_nil]
      exact hdrawn cells List.prefix_rfl
    · have hlast : (s.write (cells ++ '\n' :: again)).last = again := by
        rw [write_append, write_newline, write_plain (hline.front ha)]
        simp [last]
      rw [hlast]
      exact (length_visible_le again).trans ha.length_le

theorem within_of_front (hs : (visible s.last).length ≤ line.length) (ht : IsPlain text)
    (hline : IsPlain line) (hlen : text.length ≤ line.length)
    (hk : kind = .progress ∨ kind = .info) (hl : Display.layout line text kind = some cells)
    (hf : front <+: cells) : (visible (s.write front).last).length ≤ line.length := by
  rcases hk with rfl | rfl
  · exact within_of_overwrite hs ht hlen hl hf
  · simp only [Display.layout] at hl
    split at hl
    · rename_i h
      obtain rfl := Option.some.inj hl
      subst h
      obtain rfl := List.length_eq_zero_iff.1 (Nat.le_zero.1 hlen)
      refine within_of_newline (fun front hf => ?_) hline hf
      rw [List.prefix_nil.1 hf]
      exact hs
    · obtain ⟨drawn, hd, rfl⟩ := Option.map_eq_some_iff.1 hl
      exact within_of_newline (fun front hf => within_of_overwrite hs ht hlen hd hf) hline hf

end Screen

namespace Display

open Screen

variable {d : Display} {ps : List Print} {p : Print} {m : Message} {s : Screen} {cells : List Char}

def shown? (d : Display) (ps : List Print) : Option Screen :=
  ofBytes? (d.transcript ps)

def messages (ps : List Print) : List Message :=
  ps.filterMap fun
    | .message m => some m
    | .sink _ => none

def writesText (d : Display) : List Print → Bool
  | [] => true
  | p :: ps => (Utf8.decode (d.written p)).isOk && (d.after p).writesText ps

/-- Whether a call writes an info completely: behind it the progress line stands on a new line. -/
def isRenewal (d : Display) : Print → Bool
  | .message (.info text) => d.takes (.info text)
  | _ => false

/-- Whether a call is written completely or not at all, or its text is no longer than the progress
line. -/
def isSlight (d : Display) : Print → Bool
  | .message m =>
    d.takes m || (d.written (.message m)).isEmpty || decide (m.text.length ≤ d.line.length)
  | .sink _ => true

def renews (d : Display) : List Print → Bool
  | [] => false
  | p :: ps => d.isRenewal p || (d.after p).renews ps

/-- Whether no write of a text longer than the progress line has failed halfway, unless an info has
been written completely since. -/
def slight (d : Display) : List Print → Bool
  | [] => true
  | p :: ps => (d.isSlight p || (d.after p).renews ps) && (d.after p).slight ps

theorem shown?_concat (h : d.shown? ps = some s) {front : List Char}
    (hw : (d.afterAll ps).written p = Utf8.encode front) :
    d.shown? (ps ++ [p]) = some (s.write front) := by
  unfold shown?
  rw [transcript_concat, hw]
  exact ofBytes?_append h front

theorem writesText_concat (d : Display) (ps : List Print) (p : Print) :
    d.writesText (ps ++ [p]) =
      (d.writesText ps && (Utf8.decode ((d.afterAll ps).written p)).isOk) := by
  induction ps generalizing d with
  | nil => exact (Bool.and_true _).trans (Bool.true_and _).symm
  | cons q ps ih =>
    rw [List.cons_append, writesText, ih, writesText, Bool.and_assoc]
    rfl

theorem renews_concat (d : Display) (ps : List Print) (p : Print) :
    d.renews (ps ++ [p]) = (d.renews ps || (d.afterAll ps).isRenewal p) := by
  induction ps generalizing d with
  | nil => exact (Bool.or_false _).trans (Bool.false_or _).symm
  | cons q ps ih =>
    rw [List.cons_append, renews, ih, renews, Bool.or_assoc]
    rfl

theorem isSlight_of_isRenewal (h : d.isRenewal p = true) : d.isSlight p = true := by
  cases p with
  | sink => rfl
  | message m =>
    cases m with
    | info text =>
      have ht : d.takes (.info text) = true := h
      simp [isSlight, ht]
    | _ => cases h

theorem slight_concat (d : Display) (ps : List Print) (p : Print) :
    d.slight (ps ++ [p]) =
      ((d.afterAll ps).isRenewal p || (d.slight ps && (d.afterAll ps).isSlight p)) := by
  induction ps generalizing d with
  | nil =>
    have h := @isSlight_of_isRenewal d p
    simp only [List.nil_append, slight, renews, afterAll, List.foldl_nil]
    cases hr : d.isRenewal p <;> simp_all
  | cons q ps ih =>
    have ha : d.afterAll (q :: ps) = (d.after q).afterAll ps := rfl
    rw [List.cons_append, slight, ih, renews_concat, slight, ha]
    cases ((d.after q).afterAll ps).isRenewal p <;> simp [Bool.and_assoc]

/-! One call. -/

theorem written_prefix (hl : layout d.line.toList m.text.toList m.kind = some cells) :
    d.written (.message m) <+: Utf8.encode cells := by
  simp only [written, draw, hl, Option.map_some, Option.elim_some]
  split
  · exact List.prefix_rfl
  · unfold Sink.accepted
    split
    · exact List.prefix_rfl
    · exact List.take_prefix ..

theorem written_eq_encode (hl : layout d.line.toList m.text.toList m.kind = some cells)
    (hu : (Utf8.decode (d.written (.message m))).isOk = true) :
    ∃ front, front <+: cells ∧ d.written (.message m) = Utf8.encode front := by
  cases hd : Utf8.decode (d.written (.message m)) with
  | error fault => rw [hd] at hu; cases hu
  | ok text =>
    have hw := Utf8.decode_eq_ok_iff.1 hd
    exact ⟨text.toList, Utf8.prefix_of_encode (hw ▸ written_prefix hl), hw.symm⟩

theorem exists_cells_of_takes (h : d.takes m = true) :
    ∃ cells, layout d.line.toList m.text.toList m.kind = some cells ∧
      d.written (.message m) = Utf8.encode cells := by
  simp only [takes, Bool.and_eq_true, Bool.not_eq_true', decide_eq_true_eq] at h
  obtain ⟨cells, hl⟩ := isOverrun_eq_false_iff.1 h.1
  exact ⟨cells, hl, eq_of_layout hl ▸ h.2⟩

structure Mends (d : Display) (ps : List Print) (s : Screen) : Prop where
  shown : d.shown? ps = some s
  plain : IsPlain (d.afterAll ps).line.toList
  within : d.slight ps = true → (visible s.last).length ≤ (d.afterAll ps).line.toList.length

theorem Mends.exchange (h : d.Mends ps s) (sink : Sink) : d.Mends (ps ++ [.sink sink]) s := by
  have hw : (d.afterAll ps).written (.sink sink) = Utf8.encode [] := rfl
  have hs : d.shown? (ps ++ [.sink sink]) = some s := shown?_concat h.shown hw
  refine ⟨hs, ?_, fun hsl => ?_⟩
  · rw [afterAll_concat]
    exact h.plain
  · rw [slight_concat] at hsl
    rw [afterAll_concat]
    exact h.within (by simpa [isRenewal, isSlight] using hsl)

theorem Mends.fail (h : d.Mends ps s) (hk : m.kind = .progress ∨ m.kind = .info)
    (ht : IsPlain m.text.toList)
    (hl : layout (d.afterAll ps).line.toList m.text.toList m.kind = some cells)
    {front : List Char} (hf : front <+: cells)
    (hw : (d.afterAll ps).written (.message m) = Utf8.encode front)
    (htakes : (d.afterAll ps).takes m = false) : d.Mends (ps ++ [.message m]) (s.write front) := by
  have hline : (d.afterAll (ps ++ [.message m])).line = (d.afterAll ps).line := by
    rw [afterAll_concat, line_after_message, htakes]
    rfl
  refine ⟨shown?_concat h.shown hw, hline ▸ h.plain, fun hsl => ?_⟩
  rw [hline]
  have hr : (d.afterAll ps).isRenewal (.message m) = false := by
    cases m <;> first | rfl | exact htakes
  simp only [slight_concat, hr, Bool.false_or, Bool.and_eq_true, isSlight, htakes, Bool.or_eq_true,
    List.isEmpty_iff, decide_eq_true_eq] at hsl
  obtain ⟨hsl, hn | hlen⟩ := hsl
  · have hnone : front = [] := List.prefix_nil.1 (Utf8.prefix_of_encode (hw ▸ hn ▸ List.nil_prefix))
    rw [hnone]
    exact h.within hsl
  · rw [← String.length_toList, ← String.length_toList] at hlen
    exact within_of_front (h.within hsl) ht h.plain hlen hk hl hf

theorem Mends.complete (h : d.Mends ps s) (hk : m.kind = .progress ∨ m.kind = .info)
    (ht : IsPlain m.text.toList) (htakes : (d.afterAll ps).takes m = true) :
    ∃ s', d.Mends (ps ++ [.message m]) s' ∧
      s.Redraws (d.afterAll ps).line.toList m.text.toList m.kind s' := by
  obtain ⟨cells, hl, hw⟩ := exists_cells_of_takes htakes
  have hr := redraws_of_layout ht h.plain hl s
  have hline : (d.afterAll (ps ++ [.message m])).line =
      nextLine (d.afterAll ps).line m.text m.kind := by
    rw [afterAll_concat, line_after_message, if_pos htakes]
  refine ⟨_, ⟨shown?_concat h.shown hw, ?_, fun hsl => ?_⟩, hr⟩
  · rw [hline]
    cases m with
    | progress text => exact ht
    | _ => exact h.plain
  · rw [hline]
    cases m with
    | progress text =>
      simp only [slight_concat, isRenewal, Bool.false_or, Bool.and_eq_true] at hsl
      exact hr.within_progress (h.within hsl.1)
    | info text => exact hr.within_info
    | _ => rcases hk with hk | hk <;> cases hk

/-! Any number of calls. -/

theorem mends_of_prints {sink : Sink}
    (hcalls : ∀ m ∈ messages ps, (m.kind = .progress ∨ m.kind = .info) ∧ IsPlain m.text.toList)
    (hpads : overruns { sink } ps = false) (hcuts : writesText { sink } ps = true) :
    ∃ s, Mends { sink } ps s := by
  induction ps using List.reverseRecOn with
  | nil => exact ⟨{}, screen?_nil _, ⟨List.not_mem_nil, List.not_mem_nil⟩, fun _ => le_rfl⟩
  | append_singleton ps p ih =>
    unfold messages at hcalls ih
    rw [List.filterMap_append, List.forall_mem_append] at hcalls
    rw [overruns_concat, Bool.or_eq_false_iff] at hpads
    rw [writesText_concat, Bool.and_eq_true] at hcuts
    obtain ⟨s, h⟩ := ih hcalls.1 hpads.1 hcuts.1
    cases p with
    | sink other => exact ⟨s, h.exchange other⟩
    | message m =>
      obtain ⟨hk, ht⟩ := hcalls.2 m (by simp)
      cases htakes : (afterAll { sink } ps).takes m with
      | true =>
        obtain ⟨s', h', -⟩ := h.complete hk ht htakes
        exact ⟨s', h'⟩
      | false =>
        obtain ⟨cells, hl⟩ := isOverrun_eq_false_iff.1 hpads.2
        obtain ⟨front, hf, hw⟩ := written_eq_encode hl hcuts.2
        exact ⟨_, h.fail hk ht hl hf hw htakes⟩

/-- A progress text that is written completely is alone on the last line exactly if no more was seen
there than the longer of this text and the progress line, which failed writes have left as it was. So
it is if every such write was slight, or an info has been written completely since. -/
theorem mended_iff (sink : Sink) (ps : List Print) (text : String)
    (hcalls : ∀ m ∈ messages ps, (m.kind = .progress ∨ m.kind = .info) ∧ IsPlain m.text.toList)
    (ht : IsPlain text.toList) (hpads : overruns { sink } ps = false)
    (hcuts : writesText { sink } ps = true)
    (htakes : (afterAll { sink } ps).takes (.progress text) = true) :
    ∃ s s', shown? { sink } ps = some s ∧
      shown? { sink } (ps ++ [.message (.progress text)]) = some s' ∧
        (visible s'.last = visible text.toList ↔ (visible s.last).length ≤
          max text.length (afterAll { sink } ps).line.length) ∧
        (slight { sink } ps = true → visible s'.last = visible text.toList) := by
  obtain ⟨s, h⟩ := mends_of_prints hcalls hpads hcuts
  obtain ⟨s', h', hr⟩ := h.complete (m := .progress text) (.inl rfl) ht htakes
  have hiff : visible s'.last = visible text.toList ↔ (visible s.last).length ≤
      max text.length (afterAll { sink } ps).line.length := by
    rw [← String.length_toList, ← String.length_toList]
    cases hr with
    | progress => exact visible_cover_iff
  refine ⟨s, s', h.shown, h'.shown, hiff, fun hsl => hiff.2 ?_⟩
  rw [← (afterAll { sink } ps).line.length_toList]
  exact (h.within hsl).trans (Nat.le_max_right ..)

def resumed : List Print :=
  [.message (.progress "Copying 50%"), .sink ⟨some 8, false⟩, .message (.progress "Copying 51%"),
    .sink {}]

theorem mended_of_resumed : ∃ s', shown? {} (resumed ++ [.message (.progress "Done")]) = some s' ∧
    visible s'.last = "Done".toList := by
  obtain ⟨s, s', -, hs', -, hmended⟩ := mended_iff {} resumed "Done" (by decide +kernel)
    (by decide +kernel) (by decide +kernel) (by decide +kernel) (by decide +kernel)
  exact ⟨s', hs', (hmended (by decide +kernel)).trans (by decide +kernel)⟩

def halved : List Print :=
  [.sink ⟨some 3, false⟩, .message (.progress "abc"), .sink {}]

theorem leftover_of_halved :
    (∀ m ∈ messages halved, m.kind = .progress ∧ m.text ≠ "" ∧ IsPlain m.text.toList) ∧
      overruns {} (halved ++ [.message (.progress "x")]) = false ∧
        writesText {} halved = true ∧
          (afterAll {} halved).fault? (.progress "x") = none ∧
            ∃ s', shown? {} (halved ++ [.message (.progress "x")]) = some s' ∧
              s'.last = "xb".toList ∧ visible s'.last ≠ visible "x".toList := by
  have h : (shown? {} (halved ++ [.message (.progress "x")])).map Screen.last =
      some "xb".toList := by decide +kernel
  obtain ⟨s', hs', hl⟩ := Option.map_eq_some_iff.1 h
  refine ⟨by decide +kernel, by decide +kernel, by decide +kernel, by decide +kernel, s', hs', hl,
    ?_⟩
  rw [hl]
  decide +kernel

end Display

end JobConsole
