import JobConsole.Proofs.Residue

/-!
Clearing: an empty progress text blanks the progress line out and leaves the cursor where that line
ended. What comes next stands as far in, unless it returns to the front of the line first.
-/

namespace JobConsole

section Blanks

variable {xs ys zs : List Char} {n : Nat}

theorem visible_eq_nil_iff : visible xs = [] ↔ ∀ c ∈ xs, c = ' ' :=
  @visible_append_eq_iff [] _

theorem visible_append_congr (h : visible ys = visible zs) (xs : List Char) :
    visible (xs ++ ys) = visible (xs ++ zs) := by
  obtain ⟨bs', hy, hblank⟩ := exists_blanks ys
  obtain ⟨bz, hz, hblank'⟩ := exists_blanks zs
  rw [hy, hz, h, ← List.append_assoc, ← List.append_assoc, visible_append_of_blank hblank,
    visible_append_of_blank hblank']

theorem visible_tail_congr (h : visible ys = visible zs) : visible ys.tail = visible zs.tail := by
  obtain ⟨bs', hy, hblank⟩ := exists_blanks ys
  obtain ⟨bz, hz, hblank'⟩ := exists_blanks zs
  rw [hy, hz, h]
  cases hv : visible zs with
  | nil =>
    have hl : visible bs'.tail = [] :=
      visible_eq_nil_iff.2 fun c hc => hblank c (List.mem_of_mem_tail hc)
    have hr : visible bz.tail = [] :=
      visible_eq_nil_iff.2 fun c hc => hblank' c (List.mem_of_mem_tail hc)
    exact hl.trans hr.symm
  | cons c v =>
    rw [List.cons_append, List.cons_append, List.tail_cons, List.tail_cons,
      visible_append_of_blank hblank, visible_append_of_blank hblank']

/-- Only a line of blanks looks the same further in. -/
theorem visible_indented_iff (hn : 0 < n) :
    visible (List.replicate n ' ' ++ xs) = visible xs ↔ ∀ c ∈ xs, c = ' ' := by
  have hblank : ∀ c ∈ List.replicate n ' ', c = ' ' := fun c hc => List.eq_of_mem_replicate hc
  constructor
  · intro h
    by_contra hx
    rw [← visible_eq_nil_iff] at hx
    have hv : visible (List.replicate n ' ' ++ visible xs) =
        List.replicate n ' ' ++ visible xs := by
      unfold visible at hx ⊢
      rw [List.rdropWhile_eq_self_iff]
      intro hne
      rw [List.getLast_append_of_ne_nil _ hx]
      exact List.rdropWhile_last_not _ _ hx
    have hi : visible (visible xs) = visible xs := List.rdropWhile_idempotent ..
    rw [← visible_append_congr hi, hv] at h
    have hl := congrArg List.length h
    simp at hl
    omega
  · intro hx
    rw [visible_append_of_blank hx, visible_eq_nil_iff.2 hx, visible_eq_nil_iff.2 hblank]

end Blanks

namespace Screen

variable {above : List (List Char)} {s t : Screen} {text front rest : List Char}

def show? (s : Screen) (bytes : List UInt8) : Option Screen :=
  match Utf8.decode bytes with
  | .ok text => some (s.write text.toList)
  | .error _ => none

theorem show?_encode (s : Screen) (cells : List Char) :
    s.show? (Utf8.encode cells) = some (s.write cells) := by
  have hd := (@Utf8.decode_eq_ok_iff (Utf8.encode cells) (String.ofList cells)).2
    (by rw [String.toList_ofList])
  unfold show?
  rw [hd]
  simp only [String.toList_ofList]

/-- A screen shows some lines and below them what another one shows, with the cursor as far in. -/
structure Extends (above : List (List Char)) (t s : Screen) : Prop where
  upper : s.above.map visible = above.map visible ++ t.above.map visible
  before : s.before = t.before
  behind : visible s.behind = visible t.behind

theorem Extends.last (h : Extends above t s) : visible s.last = visible t.last := by
  unfold Screen.last
  rw [h.before]
  exact visible_append_congr h.behind _

theorem Extends.rows (h : Extends above t s) :
    s.rows.map visible = above.map visible ++ t.rows.map visible := by
  simp [Screen.rows, h.upper, h.last]

theorem Extends.put (h : Extends above t s) (c : Char) : Extends above (t.put c) (s.put c) := by
  unfold Screen.put
  split
  · exact ⟨h.upper, rfl, h.last⟩
  · split
    · exact ⟨by simp [h.upper, h.last], rfl, rfl⟩
    · exact ⟨h.upper, by rw [h.before], visible_tail_congr h.behind⟩

theorem Extends.write (h : Extends above t s) (text : List Char) :
    Extends above (t.write text) (s.write text) := by
  induction text generalizing s t with
  | nil => exact h
  | cons c text ih => exact ih (h.put c)

/-- The last lines of both screens are blank, and the cursors may stand anywhere on them. -/
structure Blank (above : List (List Char)) (t s : Screen) : Prop where
  upper : s.above.map visible = above.map visible ++ t.above.map visible
  left : visible t.last = []
  right : visible s.last = []

theorem Blank.rows (h : Blank above t s) :
    s.rows.map visible = above.map visible ++ t.rows.map visible := by
  simp [Screen.rows, h.upper, h.left, h.right]

theorem Blank.put (h : Blank above t s) {c : Char} (hc : c = '\r' ∨ c = '\n') :
    Extends above (t.put c) (s.put c) := by
  rcases hc with rfl | rfl
  · exact ⟨h.upper, rfl, h.right.trans h.left.symm⟩
  · exact ⟨by simp [Screen.put, h.upper, h.left, h.right], rfl, rfl⟩

theorem visible_write_blanks (hs : visible s.last = []) (hf : ∀ c ∈ front, c = ' ') :
    (s.write front).above = s.above ∧ visible (s.write front).last = [] := by
  have hp : IsPlain front :=
    ⟨fun h => absurd (hf _ h) (by decide), fun h => absurd (hf _ h) (by decide)⟩
  rw [visible_eq_nil_iff, Screen.last, List.forall_mem_append] at hs
  rw [write_plain hp, visible_eq_nil_iff, Screen.last]
  refine ⟨rfl, ?_⟩
  simp only [List.forall_mem_append]
  exact ⟨⟨hs.1, hf⟩, fun c hc => hs.2 c (List.mem_of_mem_drop hc)⟩

/-- Blanks do not tell where on a blank line they are drawn, and behind a return or a line end
nothing does any more. -/
theorem Blank.write (h : Blank above t s) (hf : ∀ c ∈ front, c = ' ')
    (hr : ∀ c ∈ rest.head?, c = '\r' ∨ c = '\n') :
    (s.write (front ++ rest)).rows.map visible =
      above.map visible ++ (t.write (front ++ rest)).rows.map visible := by
  obtain ⟨ht, htl⟩ := visible_write_blanks h.left hf
  obtain ⟨hs, hsl⟩ := visible_write_blanks h.right hf
  have hb : Blank above (t.write front) (s.write front) := ⟨by rw [hs, ht, h.upper], htl, hsl⟩
  rw [write_append, write_append]
  cases rest with
  | nil => exact hb.rows
  | cons c rest => exact ((hb.put (hr c rfl)).write rest).rows

end Screen

namespace Display

open Screen

variable {d : Display} {sink : Sink} {calls more earlier following shown : List Message}
  {m : Message} {s : Screen} {cells : List Char}

/-! What some calls write. -/

def cells? (d : Display) : List Message → Option (List Char)
  | [] => some []
  | m :: calls => (layout d.line.toList m.text.toList m.kind).bind fun cells =>
    ((d.after (.message m)).cells? calls).map (cells ++ ·)

theorem cells?_cons {cells more : List Char}
    (hl : layout d.line.toList m.text.toList m.kind = some cells)
    (hc : (d.after (.message m)).cells? calls = some more) :
    d.cells? (m :: calls) = some (cells ++ more) := by
  rw [cells?, hl, Option.bind_some, hc, Option.map_some]

theorem cells?_eq_some_cons (h : d.cells? (m :: calls) = some cells) :
    ∃ xs ys, layout d.line.toList m.text.toList m.kind = some xs ∧
      (d.after (.message m)).cells? calls = some ys ∧ cells = xs ++ ys := by
  obtain ⟨xs, hl, hc⟩ := Option.bind_eq_some_iff.1 h
  obtain ⟨ys, hy, rfl⟩ := Option.map_eq_some_iff.1 hc
  exact ⟨xs, ys, hl, hy, rfl⟩

theorem cells?_of_not_overruns (h : d.overruns (calls.map .message) = false) :
    ∃ cells, d.cells? calls = some cells := by
  induction calls generalizing d with
  | nil => exact ⟨[], rfl⟩
  | cons m calls ih =>
    rw [List.map_cons, overruns, Bool.or_eq_false_iff] at h
    obtain ⟨cells, hl⟩ := isOverrun_eq_false_iff.1 h.1
    obtain ⟨more, hc⟩ := ih h.2
    exact ⟨_, cells?_cons hl hc⟩

theorem transcript_of_cells (hs : d.sink.budget = none) (hc : d.cells? calls = some cells) :
    d.transcript (calls.map .message) = Utf8.encode cells := by
  induction calls generalizing d cells with
  | nil =>
    obtain rfl := Option.some.inj hc
    rfl
  | cons m calls ih =>
    obtain ⟨xs, ys, hl, hy, rfl⟩ := cells?_eq_some_cons hc
    obtain ⟨ha, hw⟩ := after_message hs hl
    rw [List.map_cons, transcript, hw, Utf8.encode_append]
    rw [ha] at hy ⊢
    have hsink : (Display.mk (nextLine d.line m.text m.kind) d.sink).sink.budget = none := hs
    rw [ih hsink hy]

theorem screen?_append (hs : d.sink.budget = none) (h : d.screen? calls = some s)
    (hc : (d.afterCalls calls).cells? more = some cells) :
    d.screen? (calls ++ more) = some (s.write cells) := by
  unfold screen?
  rw [List.map_append, transcript_append]
  change Screen.ofBytes? (_ ++ (d.afterCalls calls).transcript _) = _
  rw [transcript_of_cells (budget_afterCalls hs calls) hc]
  exact Screen.ofBytes?_append h cells

/-! The state behind an empty progress text. -/

theorem afterCalls_cleared (hs : sink.budget = none)
    (h : overruns { sink } ((calls ++ [Message.progress ""]).map .message) = false) :
    afterCalls { sink } (calls ++ [Message.progress ""]) = { sink } := by
  obtain ⟨-, cells, hl⟩ := layout_of_not_overruns h
  rw [afterCalls_concat, (after_message (budget_afterCalls hs calls) hl).1]
  have hsink := sink_afterCalls (d := { sink }) hs calls
  generalize afterCalls { sink } calls = d at hsink
  cases d
  cases hsink
  rfl

theorem covered_of_unprompted (h : ∀ m ∈ calls, m.kind = .progress ∨ m.kind = .info) :
    Covered calls := by
  rintro pre text slot post rfl
  have hm := h (.prompt text slot) (by simp)
  simp [Message.kind] at hm

/-! Where the texts of calls without a progress line begin. -/

def leading : List Message → List Message
  | .prompt text slot :: calls => .prompt text slot :: leading calls
  | .info text :: _ => [.info text]
  | _ => []

/-- What is drawn in front of the first return to the front of the line. -/
def opening (calls : List Message) : List Char :=
  (leading calls).flatMap (·.text.toList)

theorem leading_begins (calls : List Message) : leading calls <+: calls := by
  fun_induction leading calls with
  | case1 text slot calls ih => exact (List.prefix_cons_inj _).2 ih
  | case2 text calls => exact (List.prefix_cons_inj _).2 List.nil_prefix
  | case3 => exact List.nil_prefix

theorem opening_begins (h : shown <+: calls) : opening shown <+: opening calls := by
  obtain ⟨rest, rfl⟩ := h
  induction shown with
  | nil => exact List.nil_prefix
  | cons m shown ih =>
    cases m with
    | prompt text slot => exact (List.prefix_append_right_inj _).2 ih
    | _ => exact List.prefix_refl _

theorem cells_opening (hs : sink.budget = none) (hx : ∀ m ∈ calls, m.kind ≠ .exit)
    (hc : cells? { sink } calls = some cells) :
    ∃ rest, cells = opening calls ++ rest ∧ ∀ c ∈ rest.head?, c = '\r' ∨ c = '\n' := by
  induction calls generalizing cells with
  | nil =>
    obtain rfl := Option.some.inj hc
    exact ⟨[], rfl, nofun⟩
  | cons m calls ih =>
    obtain ⟨xs, ys, hl, hy, rfl⟩ := cells?_eq_some_cons hc
    cases m with
    | progress text =>
      have hxs : xs = '\r' :: text.toList := by
        simpa [layout, overwrite, pad_nil, Message.kind, Message.text] using hl.symm
      exact ⟨xs ++ ys, rfl, by simp [hxs]⟩
    | info text =>
      obtain rfl : text.toList ++ ['\n'] = xs := Option.some.inj hl
      exact ⟨'\n' :: ys, by simp [opening, leading, Message.text], by simp⟩
    | prompt text slot =>
      obtain rfl : text.toList = xs := Option.some.inj hl
      have ha : after { sink } (.message (.prompt text slot)) = { sink } := (after_message hs hl).1
      rw [ha] at hy
      obtain ⟨rest, rfl, hr⟩ := ih (fun k hk => hx k (List.mem_cons_of_mem _ hk)) hy
      exact ⟨rest, (List.append_assoc ..).symm, hr⟩
    | exit text code => exact absurd rfl (hx (.exit text code) List.mem_cons_self)

theorem cells_leading (hs : sink.budget = none) (calls : List Message) :
    ∃ rest, cells? { sink } (leading calls) = some (opening calls ++ rest) ∧
      (rest = [] ∨ rest = ['\n']) := by
  induction calls with
  | nil => exact ⟨[], rfl, .inl rfl⟩
  | cons m calls ih =>
    cases m with
    | prompt text slot =>
      obtain ⟨rest, hc, hr⟩ := ih
      have hl : layout (Display.mk "" sink).line.toList text.toList .prompt = some text.toList := rfl
      have ha : after { sink } (.message (.prompt text slot)) = { sink } := (after_message hs hl).1
      rw [← ha] at hc
      exact ⟨rest, (cells?_cons hl hc).trans (congrArg some (List.append_assoc ..).symm), hr⟩
    | info text =>
      have hl : layout (Display.mk "" sink).line.toList text.toList .info =
          some (text.toList ++ ['\n']) := rfl
      refine ⟨['\n'], (cells?_cons (m := .info text) hl rfl).trans ?_, .inr rfl⟩
      simp [opening, leading, Message.text]
    | _ => exact ⟨[], rfl, .inl rfl⟩

/-! The calls behind an empty progress text. -/

/-- Behind `earlier` and an empty progress text, `shown` looks below the lines above as what a new
display draws for it where the cursor stands behind `n` blanks. -/
def DrawsBehind (n : Nat) (sink : Sink) (earlier shown : List Message) : Prop :=
  ∃ s₀ s t, screen? { sink } (earlier ++ [.progress ""]) = some s₀ ∧
    screen? { sink } (earlier ++ [.progress ""] ++ shown) = some s ∧
      Screen.show? { before := List.replicate n ' ' }
        (transcript { sink } (shown.map .message)) = some t ∧
          s.rows.map visible = s₀.above.map visible ++ t.rows.map visible

theorem drawsBehind_iff {n : Nat} {s₀ : Screen} (hs : sink.budget = none)
    (hcleared : afterCalls { sink } (earlier ++ [.progress ""]) = { sink })
    (hshown : screen? { sink } (earlier ++ [.progress ""]) = some s₀)
    (hc : cells? { sink } shown = some cells) : DrawsBehind n sink earlier shown ↔
      (s₀.write cells).rows.map visible = s₀.above.map visible ++
        (Screen.write { before := List.replicate n ' ' } cells).rows.map visible := by
  have ht : transcript { sink } (shown.map .message) = Utf8.encode cells := transcript_of_cells hs hc
  rw [← hcleared] at hc
  unfold DrawsBehind
  rw [hshown, screen?_append hs hshown hc, ht, Screen.show?_encode]
  simp

theorem screen_cleared (hs : sink.budget = none)
    (hearlier : ∀ m ∈ earlier, m.kind = .progress ∨ m.kind = .info)
    (htexts : ∀ m ∈ earlier, IsPlain m.text.toList)
    (hpads : overruns { sink } ((earlier ++ [Message.progress ""]).map .message) = false) :
    ∃ s₀, screen? { sink } (earlier ++ [.progress ""]) = some s₀ ∧
      Extends s₀.above { before := List.replicate (Message.latest earlier).length ' ' } s₀ ∧
        Blank s₀.above {} s₀ := by
  obtain ⟨s, hshown, hw⟩ := within_of_covered hs htexts (layout_of_not_overruns hpads).1
  have hlen := hw (covered_of_unprompted hearlier)
  have htexts' : ∀ m ∈ earlier ++ [Message.progress ""], IsPlain m.text.toList := by
    rw [List.forall_mem_append, List.forall_mem_singleton]
    exact ⟨htexts, List.not_mem_nil, List.not_mem_nil⟩
  obtain ⟨s₀, hshown', hr⟩ := redraws_concat hs htexts' hpads hshown
  rw [← String.length_toList] at hlen
  refine ⟨s₀, hshown', ?_⟩
  cases hr with
  | progress =>
    refine ⟨⟨(List.append_nil _).symm, ?_, ?_⟩, (List.append_nil _).symm, rfl, ?_⟩
    · rw [← String.length_toList]
      rfl
    · exact visible_eq_nil_iff.2 (length_visible_le_iff.1 (hlen.trans (Nat.le_max_right ..)))
    · exact visible_cover_iff.2 (hlen.trans (Nat.le_max_right ..))

theorem isPlain_opening (h : ∀ m ∈ calls, IsPlain m.text.toList) : IsPlain (opening calls) := by
  have hm : ∀ m ∈ leading calls, IsPlain m.text.toList := fun m hm =>
    h m ((leading_begins calls).subset hm)
  constructor <;> simp only [opening, List.mem_flatMap, not_exists, not_and]
  · exact fun m hl => (hm m hl).1
  · exact fun m hl => (hm m hl).2

theorem blank_of_rows {n : Nat} {front rest : List Char} {above : List (List Char)} (hn : 0 < n)
    (hf : IsPlain front) (hr : rest = [] ∨ rest = ['\n'])
    (h : above ++
        (Screen.write { before := List.replicate n ' ' } (front ++ rest)).rows.map visible =
      above ++ (Screen.write {} (front ++ rest)).rows.map visible) : ∀ c ∈ front, c = ' ' := by
  rw [← visible_indented_iff hn]
  have hrows := List.append_cancel_left h
  rw [write_append, write_append, write_plain hf, write_plain hf] at hrows
  rcases hr with rfl | rfl <;> simpa [Screen.rows, Screen.last, Screen.write, Screen.put] using hrows

/-- Behind an empty progress text calls are drawn as by a new display, only that the cursor stands
where the progress line ended. So an empty progress text is as good as a new line exactly if there
was no progress line, or what is drawn before the cursor returns is blank. -/
theorem resets_iff (sink : Sink) (earlier following : List Message) (hs : sink.budget = none)
    (hearlier : ∀ m ∈ earlier, m.kind = .progress ∨ m.kind = .info)
    (hfollowing : ∀ m ∈ following, m.kind ≠ .exit)
    (htexts : ∀ m ∈ earlier ++ following, IsPlain m.text.toList)
    (hpads : overruns { sink }
      ((earlier ++ [Message.progress ""] ++ following).map .message) = false) :
    (∀ shown, shown <+: following →
      DrawsBehind (Message.latest earlier).length sink earlier shown) ∧
    ((∀ shown, shown <+: following → DrawsBehind 0 sink earlier shown) ↔
      Message.latest earlier = "" ∨ ∀ c ∈ opening following, c = ' ') := by
  rw [List.forall_mem_append] at htexts
  rw [List.map_append, overruns_append, Bool.or_eq_false_iff] at hpads
  obtain ⟨s₀, hshown, hextends, hblank⟩ := screen_cleared hs hearlier htexts.1 hpads.1
  have hcleared := afterCalls_cleared hs hpads.1
  have hcells : ∀ shown, shown <+: following → ∃ cells, cells? { sink } shown = some cells := by
    rintro shown ⟨rest, rfl⟩
    have hp : (afterCalls { sink } (earlier ++ [Message.progress ""])).overruns _ = false := hpads.2
    rw [hcleared, List.map_append, overruns_append, Bool.or_eq_false_iff] at hp
    exact cells?_of_not_overruns hp.1
  have hbehind : ∀ shown, shown <+: following →
      DrawsBehind (Message.latest earlier).length sink earlier shown := by
    intro shown hbegins
    obtain ⟨cells, hc⟩ := hcells shown hbegins
    exact (drawsBehind_iff hs hcleared hshown hc).2 (hextends.write cells).rows
  refine ⟨hbehind, fun h => ?_, fun h shown hbegins => ?_⟩
  · by_cases hn : Message.latest earlier = ""
    · exact .inl hn
    · obtain ⟨rest, hc, hr⟩ := cells_leading hs following
      have hlead := leading_begins following
      have hin := (drawsBehind_iff hs hcleared hshown hc).1 (hbehind _ hlead)
      have hout := (drawsBehind_iff hs hcleared hshown hc).1 (h _ hlead)
      have hlen : 0 < (Message.latest earlier).length := by
        rw [← String.length_toList, List.length_pos_iff, ne_eq, String.toList_eq_nil_iff]
        exact hn
      exact .inr (blank_of_rows hlen (isPlain_opening htexts.2) hr (hin.symm.trans hout))
  · rcases h with h | h
    · have hb := hbehind shown hbegins
      rw [h] at hb
      exact hb
    · obtain ⟨cells, hc⟩ := hcells shown hbegins
      obtain ⟨rest, rfl, hr⟩ := cells_opening hs
        (fun m hm => hfollowing m (hbegins.subset hm)) hc
      rw [drawsBehind_iff hs hcleared hshown hc]
      exact hblank.write (fun c hm => h c ((opening_begins hbegins).subset hm)) hr

def afresh : List Message :=
  [.prompt " " ⟨0, .producer 0⟩, .progress "50%", .info "Done", .prompt "Continue?" ⟨1, .producer 0⟩]

theorem resets_of_afresh :
    Message.latest [.info "début", .progress "Copying"] = "Copying" ∧
      ∀ shown, shown <+: afresh → DrawsBehind 0 {} [.info "début", .progress "Copying"] shown := by
  have ho : opening afresh = [' '] := by decide +kernel
  exact ⟨by decide +kernel, (resets_iff {} [.info "début", .progress "Copying"] afresh rfl
    (by decide) (by decide) (by decide +kernel) (by decide +kernel)).2.2
      (.inr (ho ▸ List.forall_mem_singleton.2 rfl))⟩

theorem indented_not_reset :
    (∀ m ∈ [Message.progress "ab", .progress "", .info "x"], IsPlain m.text.toList) ∧
      overruns {} ([Message.progress "ab", .progress "", .info "x"].map .message) = false ∧
        (screen? {} [.progress "ab", .progress "", .info "x"]).map (·.rows.map visible) =
          some ["  x".toList, []] ∧
        (screen? {} [.info "x"]).map (·.rows.map visible) = some ["x".toList, []] ∧
          ¬DrawsBehind 0 {} [.progress "ab"] [.info "x"] := by
  have hshown : (screen? {} [.progress "ab", .progress "", .info "x"]).map (·.rows.map visible) =
      some ["  x".toList, []] := by decide +kernel
  have hnew : (screen? {} [.info "x"]).map (·.rows.map visible) = some ["x".toList, []] := by
    decide +kernel
  have habove : (screen? {} [.progress "ab", .progress ""]).map (·.above) = some [] := by
    decide +kernel
  refine ⟨by decide +kernel, by decide +kernel, hshown, hnew, ?_⟩
  rintro ⟨s₀, s, t, h₀, hs, ht, he⟩
  have ht' : screen? {} [.info "x"] = some t := ht
  have h₀' : screen? {} [.progress "ab", .progress ""] = some s₀ := h₀
  have hs' : screen? {} [.progress "ab", .progress "", .info "x"] = some s := hs
  rw [h₀', Option.map_some, Option.some.injEq] at habove
  rw [hs', Option.map_some, Option.some.injEq] at hshown
  rw [ht', Option.map_some, Option.some.injEq] at hnew
  rw [hshown, hnew, habove] at he
  exact absurd he (by decide)

end Display

end JobConsole
