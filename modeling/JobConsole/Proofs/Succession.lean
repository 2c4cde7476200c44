import JobConsole.Input.OpenReads
import JobConsole.Proofs.Grammar

namespace JobConsole

variable {closed : Bool} {input rest : List Item} {result : Except Failure String}
  {results : List (Except Failure String)}

theorem Portion.extend (h : Portion false input result rest) (closed : Bool) (more : List Item) :
    Portion closed (input ++ more) result (rest ++ more) := by
  cases h with
  | line hb =>
    rw [List.append_assoc]
    exact .line hb
  | fault hb =>
    rw [List.append_assoc]
    exact .fault hb
  | last _ _ hc => cases hc
  | ended hc => cases hc

theorem Portions.extend (h : Portions false input results rest) (closed : Bool)
    (more : List Item) : Portions closed (input ++ more) results (rest ++ more) := by
  induction h with
  | nil => exact .nil
  | cons hp _ ih => exact .cons (hp.extend closed more) ih

inductive Sign (ι : Type)
  | asked (i : ι)
  | served (i : ι) (result : Except Failure String)
  | dropped (i : ι)

section FirstCome

variable {ι : Type} [DecidableEq ι]

def Sign.result? : Sign ι → Option (Except Failure String)
  | .served _ result => some result
  | _ => none

/-- How a line moves on: those who ask come to its end, and whoever is served stands at its
front. -/
inductive FirstCome : List ι → List (Sign ι) → List ι → Prop
  | nil {line : List ι} : FirstCome line [] line
  | asked {i : ι} {line line' : List ι} {signs : List (Sign ι)} (hi : i ∉ line)
      (h : FirstCome (line ++ [i]) signs line') : FirstCome line (.asked i :: signs) line'
  | served {i : ι} {line line' : List ι} {signs : List (Sign ι)} {result : Except Failure String}
      (h : FirstCome line signs line') : FirstCome (i :: line) (.served i result :: signs) line'
  | dropped {i : ι} {line line' : List ι} {signs : List (Sign ι)} (hi : i ∈ line)
      (h : FirstCome (line.erase i) signs line') : FirstCome line (.dropped i :: signs) line'

namespace FirstCome

variable {line middle line' front back : List ι} {signs more pre mid post : List (Sign ι)} {i j : ι}

theorem append (h : FirstCome line signs middle) (g : FirstCome middle more line') :
    FirstCome line (signs ++ more) line' := by
  induction h with
  | nil => exact g
  | asked hi _ ih => exact .asked hi (ih g)
  | served _ ih => exact .served (ih g)
  | dropped hi _ ih => exact .dropped hi (ih g)

theorem split (h : FirstCome line (signs ++ more) line') :
    ∃ middle, FirstCome line signs middle ∧ FirstCome middle more line' := by
  induction signs generalizing line with
  | nil => exact ⟨line, .nil, h⟩
  | cons s signs ih =>
    cases h with
    | asked hi h =>
      obtain ⟨middle, hm, hr⟩ := ih h
      exact ⟨middle, .asked hi hm, hr⟩
    | served h =>
      obtain ⟨middle, hm, hr⟩ := ih h
      exact ⟨middle, .served hm, hr⟩
    | dropped hi h =>
      obtain ⟨middle, hm, hr⟩ := ih h
      exact ⟨middle, .dropped hi hm, hr⟩

theorem stays (h : FirstCome (front ++ i :: back) signs line')
    (hs : ∀ result, .served i result ∉ signs) (hd : .dropped i ∉ signs) :
    ∃ front' back', line' = front' ++ i :: back' ∧ front' ⊆ front := by
  generalize hl : front ++ i :: back = line at h
  induction h generalizing front back with
  | nil => exact ⟨front, back, hl.symm, fun _ hx => hx⟩
  | @asked k line line' signs hk _ ih =>
    have hl' : front ++ i :: (back ++ [k]) = line ++ [k] := by
      rw [← hl, List.append_assoc, List.cons_append]
    exact ih (fun r hr => hs r (List.mem_cons_of_mem _ hr)) (mt (List.mem_cons_of_mem _) hd) hl'
  | @served k line line' signs result _ ih =>
    cases front with
    | nil =>
      obtain ⟨rfl, -⟩ := List.cons.inj hl
      exact absurd List.mem_cons_self (hs result)
    | cons x front =>
      obtain ⟨-, hl⟩ := List.cons.inj hl
      obtain ⟨front', back', rfl, hf⟩ :=
        ih (fun r hr => hs r (List.mem_cons_of_mem _ hr)) (mt (List.mem_cons_of_mem _) hd) hl
      exact ⟨front', back', rfl, fun _ hx => List.mem_cons_of_mem x (hf hx)⟩
  | @dropped k line line' signs hk _ ih =>
    have hne : i ≠ k := fun e => hd (e ▸ List.mem_cons_self)
    have hs' (r) : .served i r ∉ signs := fun hr => hs r (List.mem_cons_of_mem _ hr)
    have hd' : .dropped i ∉ signs := mt (List.mem_cons_of_mem _) hd
    subst hl
    by_cases hkf : k ∈ front
    · obtain ⟨front', back', rfl, hf⟩ := ih hs' hd' (List.erase_append_left _ hkf).symm
      exact ⟨front', back', rfl, fun _ hx => List.mem_of_mem_erase (hf hx)⟩
    · have hl : front ++ i :: back.erase k = (front ++ i :: back).erase k := by
        rw [List.erase_append_right _ hkf, List.erase_cons_tail (by simpa using hne)]
      exact ih hs' hd' hl

theorem of_asked (h : FirstCome line (.asked i :: signs) line') :
    i ∉ line ∧ FirstCome (line ++ [i]) signs line' := by
  cases h with
  | asked hi h => exact ⟨hi, h⟩

theorem of_served {result : Except Failure String}
    (h : FirstCome line (.served i result :: signs) line') : line.head? = some i := by
  cases h with
  | served h => rfl

theorem not_asked {result : Except Failure String}
    (h : FirstCome line (pre ++ .asked i :: mid ++ .served j result :: post) line')
    (hs : ∀ result, .served i result ∉ mid) (hd : .dropped i ∉ mid) : .asked j ∉ mid := by
  intro hj
  obtain ⟨early, late, rfl⟩ := List.append_of_mem hj
  obtain ⟨m, hm, hr⟩ := h.split
  obtain ⟨l, -, hl⟩ := hm.split
  obtain ⟨k, hk, hl⟩ := hl.of_asked.2.split
  obtain ⟨front, back, rfl, -⟩ := hk.stays (fun r hr => hs r (List.mem_append_left _ hr))
    (mt (List.mem_append_left _) hd)
  obtain ⟨hjk, hl⟩ := hl.of_asked
  rw [List.append_assoc, List.cons_append] at hl
  obtain ⟨front', back', rfl, hf⟩ := hl.stays
    (fun r hr => hs r (List.mem_append_right _ (List.mem_cons_of_mem _ hr)))
    (mt (fun hr => List.mem_append_right _ (List.mem_cons_of_mem _ hr)) hd)
  -- The one served, `j`, would be `i` or one of those in front of it, and `j` is neither.
  have hh := hr.of_served
  cases front' with
  | nil =>
    obtain rfl : i = j := Option.some.inj hh
    exact hjk (List.mem_append_right _ List.mem_cons_self)
  | cons x front' =>
    obtain rfl : x = j := Option.some.inj hh
    exact hjk (List.mem_append_left _ (hf List.mem_cons_self))

end FirstCome

end FirstCome

namespace LineReader

variable {ι : Type} {r : LineReader ι} {i : ι} {s : Source}

structure Given (s : Source) (results : List (Except Failure String)) (r : LineReader ι) :
    Prop where
  clean : r.Clean
  closed : r.source.closed = s.closed
  portions : Portions s.closed (itemsOf s.pieces) results r.unread

theorem Given.feed (h : r.Given s results) (hc : r.source.closed = false) (p : Piece) :
    Given (s.feed p) results { r with source := r.source.feed p } := by
  have hp := h.portions
  rw [← h.closed, hc] at hp
  refine ⟨h.clean, ?_, ?_⟩
  · rw [s.closed_feed, ← h.closed]
    exact r.source.closed_feed p
  · rw [unread_feed, s.items_feed]
    exact hp.extend _ p.items

theorem Given.close (h : r.Given s results) :
    Given s.close results { r with source := r.source.close } := by
  refine ⟨h.clean, rfl, ?_⟩
  have hp := h.portions
  cases hc : s.closed with
  | true =>
    rw [hc] at hp
    exact hp
  | false =>
    rw [hc] at hp
    have he := hp.extend true []
    rwa [List.append_nil, List.append_nil] at he

variable [DecidableEq ι]

theorem line_resume (h : r.Fair) (i : ι) :
    (if i ∈ r.line then r.line else r.line ++ [i]) =
      if (r.resume i).result.isSome then i :: (r.resume i).reader.line
      else (r.resume i).reader.line := by
  have hfree (ho : r.owner = none ∨ r.owner = some i) :
      (if i ∈ r.line then r.line else r.line ++ [i]) = i :: r.waiting := by
    rcases ho with ho | ho
    · simp [line, ho, h.taken ho]
    · simp [line, ho]
  have hr := resume_resumption r i
  generalize r.resume i = p at hr ⊢
  cases hr with
  | stalled ho _ ho' hw =>
    rw [hfree ho]
    simp [line, ho', hw]
  | @done r' _ ho hw =>
    rw [hfree ho, ← hw, ← line_release r']
    rfl
  | inLine ho _ hw =>
    have hi : i ∈ r.line := List.mem_append_right _ hw
    rw [if_pos hi]
    rfl
  | @join j ho hj hw =>
    have hn : i ∉ r.line := by simp [line, ho, hw, Ne.symm hj]
    rw [if_neg hn]
    simp [line, ho]

theorem firstCome_resume (h : r.Fair) (i : ι) :
    FirstCome r.line ((if i ∈ r.line then [] else [.asked i]) ++
      (r.resume i).result.toList.map (.served i)) (r.resume i).reader.line := by
  have hask : FirstCome r.line (if i ∈ r.line then [] else [.asked i])
      (if i ∈ r.line then r.line else r.line ++ [i]) := by
    split
    · exact .nil
    · exact .asked ‹_› .nil
  rw [line_resume h] at hask
  cases hr : (r.resume i).result with
  | none =>
    rw [hr] at hask
    simpa using hask
  | some result =>
    rw [hr] at hask
    exact hask.append (.served .nil)

theorem mem_line_of_rest (hr : (r.resume i).result = none) : i ∈ (r.resume i).reader.line := by
  obtain ⟨ho, -, hi⟩ := rest_line hr
  simp only [line, ho, Option.toList_some, List.mem_append, List.mem_singleton]
  rwa [eq_comm]

theorem not_mem_line_of_done (h : r.Fair) {result : Except Failure String}
    (hr : (r.resume i).result = some result) : i ∉ (r.resume i).reader.line := by
  have hm := resume_resumption r i
  generalize r.resume i = p at hr hm ⊢
  cases hm with
  | done ho hw ho' =>
    have hd := (h.own ho ho' hw).distinct
    rw [ho'] at hd
    rw [line_release]
    exact (List.nodup_cons.1 hd).1
  | _ => cases hr

theorem firstCome_abandon (r : LineReader ι) (i : ι) :
    FirstCome r.line (if r.isReading i then [.dropped i] else []) (r.abandon i).1.line := by
  rw [line_abandon]
  by_cases h : i ∈ r.line
  · rw [if_pos (isReading_iff.2 h)]
    exact .dropped h .nil
  · rw [if_neg (mt isReading_iff.1 h), List.erase_of_not_mem h]
    exact .nil

def Spares (r : LineReader ι) (i : ι) : Prop :=
  r.owner = some i → r.taken = []

instance (r : LineReader ι) (i : ι) : Decidable (r.Spares i) :=
  inferInstanceAs (Decidable (_ → _))

theorem Spares.unread (h : r.Spares i) : (r.abandon i).1.unread = r.unread := by
  by_cases ho : r.owner = some i
  · unfold abandon
    rw [if_pos ho]
    simp only [LineReader.unread, h ho]
    rfl
  · exact unread_abandon ho

theorem source_abandon (r : LineReader ι) (i : ι) :
    (r.abandon i).1.source = r.source := by
  unfold abandon
  split <;> rfl

theorem Given.resume (h : r.Given s results) (i : ι) :
    Given s (results ++ (r.resume i).result.toList) (r.resume i).reader := by
  cases resume_takes h.clean i with
  | done hr hp hc hs =>
    rw [h.closed] at hp hs
    refine ⟨hc, hs, ?_⟩
    rw [hr]
    exact h.portions.append (.cons hp .nil)
  | rested hr hu hc hs =>
    refine ⟨hc, hs.trans h.closed, ?_⟩
    rw [hr, Option.toList_none, List.append_nil, hu]
    exact h.portions

theorem Given.abandon (h : r.Given s results) (hi : r.Spares i) :
    Given s results (r.abandon i).1 := by
  refine ⟨h.clean.abandon i, ?_, ?_⟩
  · rw [source_abandon]
    exact h.closed
  · rw [hi.unread]
    exact h.portions

end LineReader

namespace OpenReads

open LineReader

variable {o : OpenReads} {s : Step} {steps : List Step} {source : Source} {i : Option Nat}

def Answer.result? : Answer → Option (Except Failure String)
  | .line text => some (.ok text)
  | .failed failure => some (.error failure)
  | _ => none

@[simp] theorem Answer.result?_ofResult (result : Option (Except Failure String)) :
    (ofResult result).result? = result := by
  rcases result with _ | failure | text <;> rfl

def signs (o : OpenReads) (s : Step) : List (Sign (Option Nat)) :=
  let result := (o.step s).2.result?
  match s with
  | .read =>
    match result with
    | none => [.asked none, .dropped none]
    | some result => [.asked none, .served none result]
  | .resume n =>
    (if n ∈ o.begun then [.asked (some n)] else []) ++ result.toList.map (.served (some n))
  | .abandon n => if o.reader.isReading (some n) then [.dropped (some n)] else []
  | _ => []

def history (o : OpenReads) : List Step → List (Sign (Option Nat))
  | [] => []
  | s :: steps => o.signs s ++ (o.step s).1.history steps

/-- Nothing is fed after the end of the input, and no read is given up that has taken something. -/
def Careful (o : OpenReads) : Step → Prop
  | .feed _ => o.reader.source.closed = false
  | .read => (o.reader.resume none).reader.Spares none
  | .abandon n => o.reader.Spares (some n)
  | _ => True

instance (o : OpenReads) (s : Step) : Decidable (o.Careful s) :=
  match s with
  | .feed _ => inferInstanceAs (Decidable (_ = _))
  | .read => inferInstanceAs (Decidable (Spares _ _))
  | .abandon _ => inferInstanceAs (Decidable (Spares _ _))
  | .close | .begin _ | .resume _ => inferInstanceAs (Decidable True)

def carefully (o : OpenReads) : List Step → Bool
  | [] => true
  | s :: steps => decide (o.Careful s) && (o.step s).1.carefully steps

def Step.onSource (source : Source) : Step → Source
  | .feed piece => source.feed piece
  | .close => source.close
  | _ => source

/-- A read that has not been resumed has not asked, and one that is not kept is not in line. -/
structure Tidy (o : OpenReads) : Prop where
  fair : o.reader.Fair
  nodup : o.begun.Nodup
  fresh : ∀ n ∈ o.begun, o.reader.isReading (some n) = false
  unkept : o.reader.isReading none = false

theorem result?_signs (o : OpenReads) (s : Step) :
    (o.signs s).filterMap Sign.result? = (o.step s).2.result?.toList := by
  cases s with
  | feed => rfl
  | close => rfl
  | read =>
    unfold signs
    dsimp only
    cases (o.step .read).2.result? <;> rfl
  | begin n =>
    simp only [signs, step]
    split <;> rfl
  | resume n =>
    unfold signs
    dsimp only
    rw [List.filterMap_append]
    cases (o.step (.resume n)).2.result? <;> split <;> rfl
  | abandon n =>
    simp only [signs, step]
    split <;> split <;> rfl

theorem not_mem_line (h : o.reader.isReading i = false) : i ∉ o.reader.line := by
  rw [← isReading_iff, h]
  exact Bool.false_ne_true

theorem Tidy.step (h : o.Tidy) (s : Step) : (o.step s).1.Tidy := by
  cases s with
  | feed piece => exact ⟨⟨h.fair.distinct, h.fair.taken⟩, h.nodup, h.fresh, h.unkept⟩
  | close => exact ⟨⟨h.fair.distinct, h.fair.taken⟩, h.nodup, h.fresh, h.unkept⟩
  | read =>
    refine ⟨(h.fair.resume none).abandon none, h.nodup, fun n hn => ?_,
      (h.fair.resume none).left none⟩
    exact isReading_abandon (isReading_resume nofun (h.fresh n hn))
  | begin n =>
    unfold OpenReads.step
    dsimp only
    split
    · exact h
    · rename_i ho
      simp only [isOpen, Bool.or_eq_true, decide_eq_true_eq, not_or] at ho
      refine ⟨h.fair, List.nodup_cons.2 ⟨ho.1, h.nodup⟩, fun m hm => ?_, h.unkept⟩
      rcases List.mem_cons.1 hm with rfl | hm
      · simpa using ho.2
      · exact h.fresh m hm
  | resume n =>
    unfold OpenReads.step
    dsimp only
    split
    · refine ⟨h.fair.resume _, h.nodup.erase n, fun m hm => ?_, isReading_resume nofun h.unkept⟩
      obtain ⟨hne, hm⟩ := h.nodup.mem_erase_iff.1 hm
      exact isReading_resume (fun e => hne (Option.some.inj e)) (h.fresh m hm)
    · exact h
  | abandon n =>
    unfold OpenReads.step
    dsimp only
    split
    · refine ⟨h.fair.abandon _, h.nodup.erase n, fun m hm => ?_, isReading_abandon h.unkept⟩
      exact isReading_abandon (h.fresh m (List.mem_of_mem_erase hm))
    · exact h

theorem Tidy.firstCome (h : o.Tidy) (s : Step) :
    FirstCome o.reader.line (o.signs s) (o.step s).1.reader.line := by
  cases s with
  | feed piece => exact .nil
  | close => exact .nil
  | read =>
    have hf := firstCome_resume h.fair none
    rw [if_neg (not_mem_line h.unkept)] at hf
    have ha := firstCome_abandon (o.reader.resume none).reader none
    have hr : (o.step .read).2.result? = (o.reader.resume none).result :=
      Answer.result?_ofResult _
    unfold signs
    dsimp only
    rw [hr]
    cases hd : (o.reader.resume none).result with
    | none =>
      rw [hd] at hf
      rw [if_pos (isReading_iff.2 (mem_line_of_rest hd))] at ha
      exact hf.append ha
    | some result =>
      rw [hd] at hf
      rw [if_neg (mt isReading_iff.1 (not_mem_line_of_done h.fair hd))] at ha
      exact hf.append ha
  | begin n =>
    unfold OpenReads.step
    dsimp only
    split <;> exact .nil
  | resume n =>
    by_cases hn : n ∈ o.begun
    · have hf := firstCome_resume h.fair (some n)
      rw [if_neg (not_mem_line (h.fresh n hn))] at hf
      have ho : o.isOpen n = true := by simp [isOpen, hn]
      simpa [signs, OpenReads.step, ho, hn, resumeOnce] using hf
    · by_cases ho : o.isOpen n = true
      · have hi : o.reader.isReading (some n) = true := by simpa [isOpen, hn] using ho
        have hf := firstCome_resume h.fair (some n)
        rw [if_pos (isReading_iff.1 hi)] at hf
        simpa [signs, OpenReads.step, ho, hn, resumeOnce] using hf
      · simpa [signs, OpenReads.step, ho, hn, Answer.result?] using FirstCome.nil
  | abandon n =>
    have ha := firstCome_abandon o.reader (some n)
    by_cases ho : o.isOpen n = true
    · simpa [signs, OpenReads.step, ho] using ha
    · have hi : o.reader.isReading (some n) = false := by
        simp only [isOpen, Bool.or_eq_true, decide_eq_true_eq, not_or, Bool.not_eq_true] at ho
        exact ho.2
      simpa [signs, OpenReads.step, ho, hi] using FirstCome.nil

theorem Tidy.firstCome_history (h : o.Tidy) (steps : List Step) :
    ∃ line, FirstCome o.reader.line (o.history steps) line := by
  induction steps generalizing o with
  | nil => exact ⟨_, .nil⟩
  | cons s steps ih =>
    obtain ⟨line, hl⟩ := ih (h.step s)
    exact ⟨line, (h.firstCome s).append hl⟩

theorem result?_history (o : OpenReads) (steps : List Step) :
    (o.history steps).filterMap Sign.result? = (o.run steps).filterMap Answer.result? := by
  induction steps generalizing o with
  | nil => rfl
  | cons s steps ih =>
    rw [history, run, List.filterMap_append, result?_signs, ih, List.filterMap_cons]
    cases (o.step s).2.result? <;> rfl

theorem given_step {results : List (Except Failure String)} (h : o.reader.Given source results)
    (hs : o.Careful s) :
    (o.step s).1.reader.Given (s.onSource source) (results ++ (o.step s).2.result?.toList) := by
  cases s with
  | feed piece => simpa [OpenReads.step, Step.onSource, Answer.result?] using h.feed hs piece
  | close => simpa [OpenReads.step, Step.onSource, Answer.result?] using h.close
  | read =>
    have hr := (h.resume none).abandon hs
    simpa [OpenReads.step, Step.onSource, resumeOnce] using hr
  | begin n =>
    unfold OpenReads.step
    dsimp only
    split <;> simpa [Step.onSource, Answer.result?] using h
  | resume n =>
    unfold OpenReads.step
    dsimp only
    split
    · simpa [Step.onSource, resumeOnce] using h.resume (some n)
    · simpa [Step.onSource, Answer.result?] using h
  | abandon n =>
    unfold OpenReads.step
    dsimp only
    split
    · simpa [Step.onSource, Answer.result?] using h.abandon hs
    · simpa [Step.onSource, Answer.result?] using h

theorem given_run {results : List (Except Failure String)} (h : o.reader.Given source results)
    (hs : o.carefully steps = true) : ∃ reader : LineReader (Option Nat),
      reader.Given (steps.foldl Step.onSource source)
        (results ++ (o.run steps).filterMap Answer.result?) := by
  induction steps generalizing o source results with
  | nil => exact ⟨o.reader, by simpa [run] using h⟩
  | cons s steps ih =>
    simp only [carefully, Bool.and_eq_true, decide_eq_true_eq] at hs
    obtain ⟨reader, hr⟩ := ih (given_step h hs.1) hs.2
    refine ⟨reader, ?_⟩
    rw [List.append_assoc] at hr
    rw [run, List.filterMap_cons]
    cases hres : (o.step s).2.result? with
    | none => simpa [hres] using hr
    | some result => simpa [hres] using hr

/-- Reads are done in the order in which they first asked for the lock, those that are given up left
out, and they give what as many reads of the same input give one after the other. -/
theorem run_in_order (source : Source) (steps : List Step)
    (h : carefully { reader := { source } } steps = true) :
    let o : OpenReads := { reader := { source } }
    let results := (o.run steps).filterMap Answer.result?
    (∃ line, FirstCome [] (o.history steps) line) ∧
      (∀ pre i mid j result post,
        o.history steps = pre ++ .asked i :: mid ++ .served j result :: post →
          (∀ result, .served i result ∉ mid) → .dropped i ∉ mid → .asked j ∉ mid) ∧
      (o.history steps).filterMap Sign.result? = results ∧
      ∀ i : Unit, reads { source := steps.foldl Step.onSource source } i results.length =
        results.map some := by
  intro o results
  have htidy : o.Tidy := ⟨⟨List.nodup_nil, fun _ => rfl⟩, List.nodup_nil, nofun, rfl⟩
  obtain ⟨line, hl⟩ := htidy.firstCome_history steps
  have hgiven : o.reader.Given source [] := ⟨List.not_mem_nil, rfl, .nil⟩
  obtain ⟨reader, hr⟩ := given_run hgiven h
  refine ⟨⟨line, hl⟩, fun pre i mid j result post he => ?_, result?_history o steps, fun i => ?_⟩
  · rw [he] at hl
    exact hl.not_asked
  · let fresh : LineReader Unit := { source := steps.foldl Step.onSource source }
    have hc : fresh.Clean := List.not_mem_nil
    exact reads_of_portions hc ⟨rfl, rfl⟩ hr.portions i

def rivals : List Step :=
  [.begin 1, .begin 2, .begin 3, .resume 2, .resume 1, .resume 3, .read, .feed (.bytes [0x61]),
    .resume 2, .abandon 3, .feed (.bytes [0x62, 0x0A, 0x63, 0x0A]), .resume 2,
    .feed (.fault "gone"), .begin 3, .resume 3, .resume 1, .resume 3, .close, .read]

theorem run_in_order_of_rivals :
    let o : OpenReads := { reader := { source := {} } }
    let results := (o.run rivals).filterMap Answer.result?
    carefully o rivals = true ∧ (∃ line, FirstCome [] (o.history rivals) line) ∧
      reads { source := rivals.foldl Step.onSource {} } () results.length = results.map some := by
  intro o results
  have h : carefully o rivals = true := by decide +kernel
  obtain ⟨hline, -, -, hr⟩ := run_in_order {} rivals h
  exact ⟨h, hline, hr ()⟩

example : (run {} rivals).filterMap Answer.result? =
    [.ok "ab", .ok "c", .error (.inputRead "gone"), .error .inputClosed] := by
  decide +kernel

end OpenReads

end JobConsole
