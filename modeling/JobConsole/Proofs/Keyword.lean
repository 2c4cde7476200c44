import JobConsole.Proofs.Course
import JobConsole.Proofs.Grammar
import JobConsole.Proofs.Losses
import JobConsole.Proofs.Sharing

/-!
The keyword: which lines make the keyword watch ask for the cancellation. Lines are trimmed and the
keyword is not, so that one which begins or ends with a blank is never met.
-/

namespace JobConsole

/-- The same character, or the same ASCII letter in the other case. -/
inductive Recase (c : Char) : Char → Prop
  | same : Recase c c
  | lowered {k : Char} (h : c.isUpper = true) (hk : k.toNat = c.toNat + 32) : Recase c k
  | raised {k : Char} (h : k.isUpper = true) (hk : c.toNat = k.toNat + 32) : Recase c k

def Framed (word line : List Char) : Prop :=
  ∃ left body right, line = left ++ body ++ right ∧ (∀ c ∈ left, c ∈ ['\n', '\r', ' ']) ∧
    (∀ c ∈ right, c ∈ ['\n', '\r', ' ']) ∧ List.Forall₂ Recase body word

def Bare (word : List Char) : Prop :=
  (∀ c ∈ word.head?, c ∉ ['\n', '\r', ' ']) ∧ ∀ c ∈ word.getLast?, c ∉ ['\n', '\r', ' ']

/-! Letters and their case. -/

section Letters

variable {c k : Char}

theorem isUpper_iff : c.isUpper = true ↔ 65 ≤ c.toNat ∧ c.toNat ≤ 90 := by
  unfold Char.isUpper
  rw [decide_eq_true_iff]
  exact Iff.rfl

theorem toNat_toLower (c : Char) :
    c.toLower.toNat = if c.isUpper = true then c.toNat + 32 else c.toNat := by
  unfold Char.toLower
  split
  · rename_i h
    have hu : c.isUpper = true := decide_eq_true h
    have hlt : c.val.toNat ≤ 90 := (isUpper_iff.1 hu).2
    rw [if_pos hu]
    change (c.val + 32).toNat = c.val.toNat + 32
    rw [UInt32.toNat_add]
    exact Nat.mod_eq_of_lt (by change c.val.toNat + 32 < 4294967296; omega)
  · rename_i h
    have hu : ¬ c.isUpper = true := fun hu => h (of_decide_eq_true hu)
    rw [if_neg hu]

theorem recase_iff : Recase c k ↔ c.toLower = k.toLower := by
  rw [← Char.toNat_inj, toNat_toLower, toNat_toLower]
  constructor
  · rintro (_ | ⟨h, hk⟩ | ⟨h, hk⟩)
    · rfl
    · have hn : ¬ k.isUpper = true := by
        rw [isUpper_iff] at h ⊢
        omega
      rw [if_pos h, if_neg hn, hk]
    · have hn : ¬ c.isUpper = true := by
        rw [isUpper_iff] at h ⊢
        omega
      rw [if_neg hn, if_pos h, hk]
  · intro h
    split at h <;> split at h
    · rw [Nat.add_right_cancel_iff, Char.toNat_inj] at h
      exact h ▸ .same
    · exact .lowered ‹_› h.symm
    · exact .raised ‹_› h
    · exact Char.toNat_inj.1 h ▸ .same

theorem toNat_le_of_margin (h : c ∈ ['\n', '\r', ' ']) : c.toNat ≤ 32 := by
  simp only [List.mem_cons, List.not_mem_nil, or_false] at h
  rcases h with rfl | rfl | rfl <;> decide

theorem Recase.mem_margin_iff (h : Recase c k) :
    c ∈ ['\n', '\r', ' '] ↔ k ∈ ['\n', '\r', ' '] := by
  -- Line ends and blanks come before all letters.
  have hfar {c : Char} (hc : 32 < c.toNat) : c ∉ ['\n', '\r', ' '] :=
    fun hm => absurd (toNat_le_of_margin hm) (by omega)
  cases h with
  | same => exact Iff.rfl
  | lowered h hk =>
    rw [isUpper_iff] at h
    exact iff_of_false (hfar (by omega)) (hfar (by omega))
  | raised h hk =>
    rw [isUpper_iff] at h
    exact iff_of_false (hfar (by omega)) (hfar (by omega))

theorem forall₂_recase_iff {xs ys : List Char} :
    List.Forall₂ Recase xs ys ↔ xs.map Char.toLower = ys.map Char.toLower := by
  have hr : Recase = fun c k => c.toLower = k.toLower := by
    funext c k
    exact propext recase_iff
  rw [hr, ← List.forall₂_eq_eq_eq, List.forall₂_map_left_iff, List.forall₂_map_right_iff]

end Letters

/-! Words and lines. -/

section Words

variable {word body left right line : List Char}

theorem Bare.recase (h : Bare word) (he : body.map Char.toLower = word.map Char.toLower) :
    Bare body := by
  have hmargin {c : Char} {o : Option Char} (ho : ∀ k ∈ o, k ∉ ['\n', '\r', ' '])
      (hc : some c.toLower = o.map Char.toLower) : c ∉ ['\n', '\r', ' '] := by
    obtain ⟨k, hk, hck⟩ := Option.map_eq_some_iff.1 hc.symm
    exact (recase_iff.2 hck.symm).mem_margin_iff.not.2 (ho k hk)
  have hhead := congrArg List.head? he
  have hlast := congrArg List.getLast? he
  rw [List.head?_map, List.head?_map] at hhead
  rw [List.getLast?_map, List.getLast?_map] at hlast
  refine ⟨fun c hc => hmargin h.1 ?_, fun c hc => hmargin h.2 ?_⟩
  · rw [← hhead, Option.mem_def.1 hc, Option.map_some]
  · rw [← hlast, Option.mem_def.1 hc, Option.map_some]

theorem dropWhile_margin (hl : ∀ c ∈ left, c ∈ ['\n', '\r', ' '])
    (hh : ∀ c ∈ right.head?, c ∉ ['\n', '\r', ' ']) :
    (left ++ right).dropWhile Line.isMargin = right := by
  rw [List.dropWhile_append_of_pos fun c hc => Line.isMargin_iff.2 (hl c hc)]
  cases right with
  | nil => rfl
  | cons c right =>
    exact List.dropWhile_cons_of_neg (mt Line.isMargin_iff.1 (hh c rfl))

theorem trim_eq_of_bare (hl : ∀ c ∈ left, c ∈ ['\n', '\r', ' '])
    (hr : ∀ c ∈ right, c ∈ ['\n', '\r', ' ']) (hb : Bare body) :
    Line.trim (left ++ body ++ right) = body := by
  have hback : (right.reverse ++ body.reverse).dropWhile Line.isMargin = body.reverse := by
    refine dropWhile_margin (fun c hc => hr c (List.mem_reverse.1 hc)) ?_
    rw [List.head?_reverse]
    exact hb.2
  unfold Line.trim
  cases body with
  | nil =>
    have hall : (left ++ [] ++ right).dropWhile Line.isMargin = [] := by
      rw [List.append_nil, ← List.append_nil (left ++ right)]
      exact dropWhile_margin (List.forall_mem_append.2 ⟨hl, hr⟩) nofun
    rw [hall]
    rfl
  | cons c body =>
    have hfront : (left ++ (c :: body ++ right)).dropWhile Line.isMargin = c :: body ++ right :=
      dropWhile_margin hl fun d hd => hb.1 d hd
    rw [List.append_assoc, hfront, List.reverse_append, hback, List.reverse_reverse]

theorem Settings.isCancelKeyword_trim_iff (s : Settings) (line : List Char) :
    s.isCancelKeyword (String.ofList (Line.trim line)) = true ↔
      Bare s.cancelKeyword.toList ∧ Framed s.cancelKeyword.toList line := by
  rw [isCancelKeyword, equalIgnoringCase, String.toList_ofList, decide_eq_true_iff]
  obtain ⟨left, right, hline, hl, hr, hh, ht⟩ := Line.trim_spec line
  constructor
  · intro h
    exact ⟨Bare.recase ⟨hh, ht⟩ h.symm, left, _, right, hline, hl, hr, forall₂_recase_iff.2 h⟩
  · rintro ⟨hb, left, body, right, rfl, hl, hr, h⟩
    rw [forall₂_recase_iff] at h
    rwa [trim_eq_of_bare hl hr (hb.recase h)]

theorem Line.ofBytes_eq_ok_iff {bytes : List UInt8} {text : String} :
    Line.ofBytes bytes = .ok text ↔
      ∃ line, bytes = Utf8.encode line ∧ text = String.ofList (Line.trim line) := by
  constructor
  · intro h
    unfold Line.ofBytes at h
    split at h
    · rename_i found hd
      exact ⟨found.toList, (Utf8.decode_eq_ok_iff.1 hd).symm, (Except.ok.inj h).symm⟩
    · cases h
  · rintro ⟨line, rfl, rfl⟩
    exact Line.ofBytes_encode line

theorem Settings.isCancelKeyword_ofBytes_iff (s : Settings) (bytes : List UInt8) :
    (∃ line, Line.ofBytes bytes = .ok line ∧ s.isCancelKeyword line = true) ↔
      Bare s.cancelKeyword.toList ∧
        ∃ line, bytes = Utf8.encode line ∧ Framed s.cancelKeyword.toList line := by
  constructor
  · rintro ⟨_, hb, hk⟩
    obtain ⟨line, rfl, rfl⟩ := Line.ofBytes_eq_ok_iff.1 hb
    obtain ⟨hbare, hframed⟩ := (s.isCancelKeyword_trim_iff line).1 hk
    exact ⟨hbare, line, rfl, hframed⟩
  · rintro ⟨hbare, line, rfl, hframed⟩
    exact ⟨_, Line.ofBytes_encode line, (s.isCancelKeyword_trim_iff line).2 ⟨hbare, hframed⟩⟩

end Words

theorem Portion.eq_ofBytes {closed : Bool} {bytes : List UInt8} {input rest : List Item}
    {result : Except Failure String} (h : Portion closed input result rest)
    (hi : input = bytes.map .byte ++ rest) (hb : bytes ≠ []) : result = Line.ofBytes bytes := by
  have hinj : Function.Injective Item.byte := fun _ _ => Item.byte.inj
  cases h with
  | line =>
    rw [List.map_injective_iff.2 hinj (List.append_cancel_right hi)]
  | @fault body cause =>
    have hi : body.map Item.byte ++ [.fault cause] ++ rest = bytes.map Item.byte ++ rest := by
      simpa using hi
    have hm : Item.fault cause ∈ bytes.map Item.byte := by
      rw [← List.append_cancel_right hi]
      simp
    simp at hm
  | last =>
    rw [List.append_nil] at hi
    rw [List.map_injective_iff.2 hinj hi]
  | ended =>
    rw [List.append_nil] at hi
    exact absurd (List.map_eq_nil_iff.1 hi.symm) hb

namespace Console

variable {c₀ c d : Console} {id : TaskId} {xs : List Stride} {x : Stride} {bytes : List UInt8}

structure WatchesLine (c : Console) (x : Stride) (bytes : List UInt8) : Prop where
  stride : x = .move (.step .keywordWatch) ∨ x = .work .keywordWatch
  permitted : c.permits x = true
  done : (c.stride x).reads ≠ c.reads
  input : c.reader.unread = bytes.map .byte ++ (c.stride x).reader.unread
  nonempty : bytes ≠ []

/-- The watch has passed a request on and has ended, once and for all. One that was there before
stays in its place. -/
structure Forwards (c d : Console) : Prop where
  told : ∃ line, d.events = c.events ++ [.read .keywordWatch (.ok line), .logged .keywordReceived]
  request : d.request = c.request.or (some .keyword)
  final : ∀ ys e, Course d ys e → e.keywordWatch = false

/-! Ties decided either way. -/

theorem CallTurn.reader_eq {s : Supervision} {request : Option Request} {a : Activity} {more : Bool}
    (h : CallTurn c s request a d more) : d.reader = c.reader := by
  cases h with
  | on hd => exact hd.reader_eq
  | ended hd => exact hd.reader_eq
  | crashed hd => cases request <;> exact hd.reader_eq

theorem work_keeps {P : LineReader TaskId → Prop} (hi : id ∈ watchers)
    (hr : ∀ r, P r → P (r.resume .keywordWatch).reader)
    (ha : ∀ r, P r → P (r.abandon .keywordWatch).1) (hc : P c.reader) : P (c.work id).reader := by
  rcases c.work_cases id with ⟨s, request, a, -, -, -, he⟩ | ⟨-, he⟩ <;> rw [he]
  · rw [(callTurn_cases c s request a).reader_eq]
    exact hc
  · by_cases hk : id = .keywordWatch
    · subst hk
      exact (keywordWatchTurn_cases { c with terminated := false }).keeps hr ha hc
    · change P (turn { c with terminated := false } id).1.reader
      rw [(turn_apart (not_printer_of_watchers hi) hk).1]
      exact hc

theorem Attainable.clean (h : c.Attainable) : c.reader.Clean :=
  h.invariant (P := fun c => c.reader.Clean) (fun h₀ => (new_clean_fair h₀).1)
    (fun _ m _ _ hc => clean_act m hc)
    fun _ _ _ hi _ _ hc => work_keeps hi (fun _ h => h.resume _) (fun _ h => h.abandon _) hc

theorem Attainable.fair (h : c.Attainable) : c.reader.Fair :=
  h.invariant (P := fun c => c.reader.Fair) (fun h₀ => (new_clean_fair h₀).2)
    (fun _ m _ _ hc => fair_act m hc)
    fun _ _ _ hi _ _ hc => work_keeps hi (fun _ h => h.resume _) (fun _ h => h.abandon _) hc

theorem Attainable.charged (h : c.Attainable) : ∀ i, c.Serves i → c.charge ≠ none :=
  h.invariant (P := fun c => ∀ i, c.Serves i → c.charge ≠ none) new_charged
    (fun c m _ _ hc => (c.act_hires m).charged hc)
    fun c _ _ hi _ _ hc => (c.work_hires hi).charged hc

theorem settings_stride (hx : c.permits x) : (c.stride x).settings = c.settings := by
  cases x with
  | move m => exact (c.act_sized m).1
  | work id =>
    simp only [permits, Bool.and_eq_true, decide_eq_true_eq] at hx
    exact (beside_work c hx.1.1).settings

theorem Course.settings_eq (h : Course c₀ xs c) : c.settings = c₀.settings := by
  induction h with
  | start => rfl
  | next x _ hx ih => exact (settings_stride hx).trans ih

theorem Course.watched (h : Course c₀ xs c) (hk : c₀.keywordWatch = false)
    (hj : c₀.charge ≠ none) : c.keywordWatch = false ∧ c.charge ≠ none := by
  induction h with
  | start => exact ⟨hk, hj⟩
  | next x _ hx ih => exact (stride_hires hx).watched ih.1 ih.2

/-! The watch. -/

theorem KeywordWatchTurn.reads_eq {more : Bool} (h : KeywordWatchTurn c d more)
    (ht : c.terminated = true) : d.reads = c.reads := by
  have hn (hf : c.terminated = false) : False := Bool.false_ne_true (hf.symm.trans ht)
  cases h with
  | off | stop => rfl
  | pending _ hf | keyword _ hf | other _ hf | failed _ hf => exact (hn hf).elim

theorem KeywordWatchTurn.reads_of_done {more : Bool} {result : Except Failure String}
    (h : KeywordWatchTurn c d more) (hk : c.keywordWatch = true) (ht : c.terminated = false)
    (hs : (c.reader.resume .keywordWatch).result = some result) :
    d.reads = c.reads ++ [(.keywordWatch, result)] := by
  cases h with
  | off hn => rw [hk] at hn; cases hn
  | stop _ hn => rw [ht] at hn; cases hn
  | pending _ _ hn => rw [hs] at hn; cases hn
  | keyword _ _ hs' =>
    obtain rfl := Option.some.inj (hs.symm.trans hs')
    exact (reads_record rfl).trans (reads_read _ _ _)
  | other _ _ hs' =>
    obtain rfl := Option.some.inj (hs.symm.trans hs')
    exact reads_read _ _ _
  | failed _ _ hs' =>
    obtain rfl := Option.some.inj (hs.symm.trans hs')
    exact ((reads_record rfl).trans (reads_record rfl)).trans (reads_read _ _ _)

theorem stride_watch
    (hx : x = .move (.step .keywordWatch) ∧ c.terminated = false ∨ x = .work .keywordWatch) :
    ∃ ready, c.stride x = { (keywordWatchTurn { c with terminated := false }).1 with
      ready, terminated := c.terminated } := by
  rcases hx with ⟨rfl, ht⟩ | rfl
  · obtain ⟨ready, he⟩ := c.turn_eq_step .keywordWatch
    have hstride : c.stride (.move (.step .keywordWatch)) = { c.keywordWatchTurn.1 with ready } := he
    have hopen : { c with terminated := false } = c := by rw [← ht]
    have hid : TaskId.keywordWatch ≠ .printer := nofun
    have hb : c.keywordWatchTurn.1.terminated = c.terminated := (turn_beside c hid).terminated
    refine ⟨ready, ?_⟩
    rw [hopen, hstride, ← hb]
  · exact ⟨_, rfl⟩

theorem WatchesLine.stride_eq (h : c.WatchesLine x bytes) : ∃ ready, c.stride x =
    { (keywordWatchTurn { c with terminated := false }).1 with
      ready, terminated := c.terminated } := by
  refine stride_watch (h.stride.imp_left fun hx => ⟨hx, ?_⟩)
  subst hx
  obtain ⟨ready, he⟩ := c.turn_eq_step .keywordWatch
  have hstride : c.stride (.move (.step .keywordWatch)) = { c.keywordWatchTurn.1 with ready } := he
  by_contra hn
  refine h.done ?_
  rw [hstride]
  exact c.keywordWatchTurn_cases.reads_eq (by simpa using hn)

theorem WatchesLine.of_first {body : List UInt8} {rest : List Item} (hc : c.Attainable)
    (hx : x = .move (.step .keywordWatch) ∧ c.terminated = false ∨ x = .work .keywordWatch)
    (hp : c.permits x = true) (hk : c.keywordWatch = true)
    (ho : c.reader.owner = none ∨ c.reader.owner = some .keywordWatch) (hn : Line.newline ∉ body)
    (hu : c.reader.unread = (body ++ [Line.newline]).map .byte ++ rest) :
    c.WatchesLine x (body ++ [Line.newline]) := by
  obtain ⟨ready, he⟩ := stride_watch hx
  have hl : Portion c.reader.source.closed c.reader.unread
      (Line.ofBytes (body ++ [Line.newline])) rest := hu ▸ .line hn
  have hcollect : c.reader.resume .keywordWatch = c.reader.collect .keywordWatch := by
    rcases ho with ho | ho <;> simp [LineReader.resume, ho]
  have hs := (LineReader.collect_of_portion hc.clean hl .keywordWatch).1
  rw [← hcollect] at hs
  have ht := keywordWatchTurn_cases { c with terminated := false }
  have hr := ht.reads_of_done hk rfl hs
  have hdone : (keywordWatchTurn { c with terminated := false }).1.reads ≠ c.reads := by
    rw [hr]
    change c.reads ++ [_] ≠ c.reads
    simp
  refine ⟨hx.imp_left And.left, hp, ?_, ?_, by simp⟩
  · rw [he]
    exact hdone
  · rw [he, hu]
    rcases ht.draws rfl hc.fair hc.clean with ⟨-, hr⟩ | hd
    · exact absurd hr hdone
    · cases hd with
      | rested _ _ _ _ _ hr => exact absurd hr hdone
      | read _ _ _ hl' _ =>
        have hrest := (Prod.mk.inj (Option.some.inj (hl.firstOf_eq.symm.trans hl'.firstOf_eq))).2
        rw [hrest]

inductive Verdict (c d : Console) : Except Failure String → Prop
  | keyword {line : String} (hs : c.keywordWatch = true)
      (hk : c.settings.isCancelKeyword line = true)
      (he : d.events = c.events ++ [.read .keywordWatch (.ok line), .logged .keywordReceived])
      (hr : d.request = c.request.or (some .keyword)) (hw : d.keywordWatch = false) :
      Verdict c d (.ok line)
  | other {line : String} (hk : c.settings.isCancelKeyword line = false)
      (he : d.events = c.events ++ [.read .keywordWatch (.ok line)])
      (hr : d.request = c.request) (hw : d.keywordWatch = true) : Verdict c d (.ok line)
  | failed {failure : Failure}
      (he : d.events = c.events ++ [.read .keywordWatch (.error failure),
        .logged (.watchFailed failure), .ending .keywordWatch (.abort failure)])
      (hr : d.request = c.request) : Verdict c d (.error failure)

theorem KeywordWatchTurn.verdict {more : Bool} {result : Except Failure String}
    (h : KeywordWatchTurn c d more) (hd : d.reads ≠ c.reads)
    (hs : (c.reader.resume .keywordWatch).result = some result) : Verdict c d result := by
  have hr (result : Except Failure String) : ((c.resumeRead .keywordWatch).record
      (.read .keywordWatch result)).events = c.events ++ [.read .keywordWatch result] :=
    events_record _ _
  cases h with
  | off => exact absurd rfl hd
  | stop => exact absurd rfl hd
  | pending _ _ hn => rw [hs] at hn; cases hn
  | @keyword line hw _ hs' hk =>
    obtain rfl := Option.some.inj (hs.symm.trans hs')
    refine .keyword hw hk ?_ rfl rfl
    change (log _ .keywordReceived).events = _
    rw [events_log, hr, List.append_assoc]
    rfl
  | other hw _ hs' hk =>
    obtain rfl := Option.some.inj (hs.symm.trans hs')
    exact .other hk (hr _) rfl hw
  | @failed failure _ _ hs' =>
    obtain rfl := Option.some.inj (hs.symm.trans hs')
    refine .failed ?_ rfl
    change (record (log _ (.watchFailed failure)) _).events = _
    rw [events_record, events_log, hr, List.append_assoc, List.append_assoc]
    rfl

theorem WatchesLine.verdict (h : c.WatchesLine x bytes) (hc : c.Attainable) :
    Verdict c (c.stride x) (Line.ofBytes bytes) := by
  obtain ⟨ready, he⟩ := h.stride_eq
  have ht := keywordWatchTurn_cases { c with terminated := false }
  have hdone := h.done
  have hinput := h.input
  rw [he] at hdone hinput ⊢
  rcases ht.draws rfl hc.fair hc.clean with ⟨-, hr⟩ | hd
  · exact absurd hr hdone
  · cases hd with
    | rested _ _ _ _ _ hr => exact absurd hr hdone
    | read hs _ _ hl _ =>
      rw [← hl.eq_ofBytes hinput h.nonempty]
      cases ht.verdict hdone hs with
      | keyword hwatch hk he hr hw => exact .keyword hwatch hk he hr hw
      | other hk he hr hw => exact .other hk he hr hw
      | failed he hr => exact .failed he hr

theorem Verdict.forwards_iff {result : Except Failure String} (h : Verdict c d result)
    (hfinal : c.keywordWatch = true → d.keywordWatch = false →
      ∀ ys e, Course d ys e → e.keywordWatch = false) :
    Forwards c d ↔ ∃ line, result = .ok line ∧ c.settings.isCancelKeyword line = true := by
  have hnot (hn : .logged .keywordReceived ∉ d.events.drop c.events.length) : ¬ Forwards c d := by
    rintro ⟨⟨line, he⟩, -, -⟩
    exact hn (by simp [he])
  cases h with
  | keyword hs hk he hr hw => exact iff_of_true ⟨⟨_, he⟩, hr, hfinal hs hw⟩ ⟨_, rfl, hk⟩
  | other hk he =>
    refine iff_of_false (hnot (by simp [he])) ?_
    rintro ⟨line, hl, hk'⟩
    cases hl
    rw [hk] at hk'
    cases hk'
  | failed he => exact iff_of_false (hnot (by simp [he])) (by rintro ⟨line, hl, -⟩; cases hl)

/-- The keyword watch passes a request on, and ends, exactly if the line that it has read is the
keyword in any case, with line ends and blanks around it, and the keyword has none of these at its
own ends. Behind any other line the watch goes on, and there is no new request. -/
theorem forwards_iff_framed {settings : Settings} {jobs : List Job} {source : Source} {sink : Sink}
    (h₀ : new? settings jobs source sink = some c₀) (h : Course c₀ xs c)
    (hw : c.WatchesLine x bytes) :
    (Forwards c (c.stride x) ↔ Bare settings.cancelKeyword.toList ∧
      ∃ line, bytes = Utf8.encode line ∧ Framed settings.cancelKeyword.toList line) ∧
    (¬ Forwards c (c.stride x) → (c.stride x).request = c.request ∧
      ∀ line, bytes = Utf8.encode line → (c.stride x).keywordWatch = true) := by
  have hc : c.Attainable := h.attainable (.new h₀)
  have hsettings : c.settings = settings := by
    obtain ⟨-, rfl⟩ := new?_eq_some.1 h₀
    exact h.settings_eq
  have hv := hw.verdict hc
  have hiff := hv.forwards_iff fun hs hd ys e hy => by
    have hj : (c.stride x).charge ≠ none := by
      obtain ⟨k, hk⟩ := Option.ne_none_iff_exists'.1 (hc.charged .keywordWatch hs)
      simp [(stride_hires hw.permitted).charge, hk]
    exact (hy.watched hd hj).1
  rw [hsettings] at hiff
  refine ⟨hiff.trans (settings.isCancelKeyword_ofBytes_iff bytes), fun hn => ?_⟩
  rw [hiff] at hn
  generalize hb : Line.ofBytes bytes = result at hv hn
  cases hv with
  | keyword _ hk => exact absurd ⟨_, rfl, hsettings ▸ hk⟩ hn
  | other _ _ hr hd => exact ⟨hr, fun _ _ => hd⟩
  | failed _ hr =>
    refine ⟨hr, ?_⟩
    rintro line rfl
    rw [Line.ofBytes_encode] at hb
    cases hb

def keyed (line : String) : List Stride :=
  [.move (.start 0 false), .move (.feed (.bytes (Utf8.encode line.toList)))]

theorem forwards_of_framed : ∃ c₀ c, new? { cancelKeyword := "Stop now" } [] {} {} = some c₀ ∧
    Course c₀ (keyed "  sTOP NOW \r\n") c ∧
      c.WatchesLine (.move (.step .keywordWatch)) (Utf8.encode "  sTOP NOW \r\n".toList) ∧
        Forwards c (c.stride (.move (.step .keywordWatch))) := by
  have h : ∃ c₀, new? { cancelKeyword := "Stop now" } [] {} {} = some c₀ ∧
      c₀.lawful (keyed "  sTOP NOW \r\n") = true ∧
        (c₀.follow (keyed "  sTOP NOW \r\n")).terminated = false ∧
          (c₀.follow (keyed "  sTOP NOW \r\n")).permits (.move (.step .keywordWatch)) = true ∧
            (c₀.follow (keyed "  sTOP NOW \r\n")).keywordWatch = true ∧
              (c₀.follow (keyed "  sTOP NOW \r\n")).reader.owner = none ∧
                (c₀.follow (keyed "  sTOP NOW \r\n")).reader.unread =
                  (Utf8.encode "  sTOP NOW \r".toList ++ [Line.newline]).map .byte ++ [] :=
    ⟨_, rfl, by decide +kernel, rfl, by decide +kernel, rfl, rfl, rfl⟩
  obtain ⟨c₀, h₀, hl, ht, hp, hk, ho, hu⟩ := h
  have hc : (c₀.follow (keyed "  sTOP NOW \r\n")).Attainable :=
    (Course.of_lawful hl).attainable (.new h₀)
  have hw : (c₀.follow (keyed "  sTOP NOW \r\n")).WatchesLine (.move (.step .keywordWatch))
      (Utf8.encode "  sTOP NOW \r\n".toList) :=
    .of_first hc (.inl ⟨rfl, ht⟩) hp hk (.inl ho) (by decide +kernel) hu
  have hbare : Bare "Stop now".toList := by simp [Bare]
  have hframed : Framed "Stop now".toList "  sTOP NOW \r\n".toList :=
    ⟨[' ', ' '], "sTOP NOW".toList, [' ', '\r', '\n'], rfl, by simp, by simp,
      forall₂_recase_iff.2 (by decide +kernel)⟩
  exact ⟨c₀, _, h₀, .of_lawful hl, hw,
    (forwards_iff_framed h₀ (.of_lawful hl) hw).1.2 ⟨hbare, _, rfl, hframed⟩⟩

theorem not_forwards_of_margin : ∃ c₀ c, new? { cancelKeyword := " stop " } [] {} {} = some c₀ ∧
    Course c₀ (keyed " stop \n") c ∧
      c.WatchesLine (.move (.step .keywordWatch)) (Utf8.encode " stop \n".toList) ∧
        Framed " stop ".toList " stop \n".toList ∧
          (c.stride (.move (.step .keywordWatch))).request = none ∧
            (c.stride (.move (.step .keywordWatch))).keywordWatch = true ∧
              ¬ Forwards c (c.stride (.move (.step .keywordWatch))) := by
  have h : ∃ c₀, new? { cancelKeyword := " stop " } [] {} {} = some c₀ ∧
      c₀.lawful (keyed " stop \n") = true ∧
        (c₀.follow (keyed " stop \n")).WatchesLine (.move (.step .keywordWatch))
          (Utf8.encode " stop \n".toList) ∧
            ((c₀.follow (keyed " stop \n")).stride (.move (.step .keywordWatch))).request = none ∧
              ((c₀.follow (keyed " stop \n")).stride
                (.move (.step .keywordWatch))).keywordWatch = true :=
    ⟨_, rfl, by decide +kernel, ⟨.inl rfl, by decide +kernel, by decide +kernel, rfl,
      by decide +kernel⟩, by decide +kernel, by decide +kernel⟩
  obtain ⟨c₀, h₀, hl, hw, hr, hwatch⟩ := h
  have hframed : Framed " stop ".toList " stop \n".toList :=
    ⟨[], " stop ".toList, ['\n'], rfl, nofun, by simp, forall₂_recase_iff.2 rfl⟩
  refine ⟨c₀, _, h₀, .of_lawful hl, hw, hframed, hr, hwatch, fun hf => ?_⟩
  rw [hf.final [] _ .start] at hwatch
  cases hwatch

end Console

end JobConsole
