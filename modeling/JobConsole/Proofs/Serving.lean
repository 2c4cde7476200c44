import JobConsole.Proofs.Intake
import JobConsole.Proofs.Slots

namespace JobConsole

namespace Event

def answer? : Event → Option (Except Failure String)
  | read i result => if i = .printer then some result else none
  | _ => none

def question? (e : Event) : Option ReplySlot :=
  e.handled?.bind Message.slot?

theorem isDuty_of_answer? {e : Event} {result : Except Failure String}
    (h : e.answer? = some result) : e.isDuty = true := by
  cases e with
  | read i result =>
    simp only [answer?] at h
    split at h
    · rename_i hi
      exact decide_eq_true hi
    · cases h
  | _ => cases h

theorem isDuty_of_question? {e : Event} {slot : ReplySlot} (h : e.question? = some slot) :
    e.isDuty = true := by
  cases e <;> first | rfl | cases h

@[simp]
theorem question?_handled (m : Message) : (handled m).question? = m.slot? :=
  rfl

@[simp]
theorem question?_wrote (bytes : List UInt8) : (wrote bytes).question? = none :=
  rfl

@[simp]
theorem question?_read (i : TaskId) (result : Except Failure String) :
    (read i result).question? = none :=
  rfl

@[simp]
theorem question?_ending (i : TaskId) (x : Ending) : (ending i x).question? = none :=
  rfl

@[simp]
theorem answer?_handled (m : Message) : (handled m).answer? = none :=
  rfl

@[simp]
theorem answer?_wrote (bytes : List UInt8) : (wrote bytes).answer? = none :=
  rfl

@[simp]
theorem answer?_read (result : Except Failure String) :
    (read .printer result).answer? = some result :=
  rfl

@[simp]
theorem answer?_ending (i : TaskId) (x : Ending) : (ending i x).answer? = none :=
  rfl

end Event

variable {es fs older newer : List Event} {p : Printer} {slot : ReplySlot} {m : Message}

section Zip

variable {α β : Type} {xs ys : List α} {zs : List β}

theorem zip_append_left (h : zs.length ≤ xs.length) : (xs ++ ys).zip zs = xs.zip zs := by
  have hl : (xs.take zs.length).length = zs.length := List.length_take_of_le h
  have hz (ws : List α) : (xs.take zs.length ++ ws).zip zs = (xs.take zs.length).zip zs := by
    simpa using @List.zip_append _ _ (xs.take zs.length) ws zs [] hl
  rw [← List.take_append_drop zs.length xs, List.append_assoc, hz, hz]

theorem map_fst_zip_begins (h : zs.length ≤ xs.length) : (xs.zip zs).map Prod.fst <+: xs := by
  have hl : (xs.take zs.length).length = zs.length := List.length_take_of_le h
  have hz : (xs.take zs.length ++ xs.drop zs.length).zip zs = (xs.take zs.length).zip zs :=
    zip_append_left (Nat.le_of_eq hl.symm)
  rw [List.take_append_drop] at hz
  rw [hz, List.map_fst_zip (Nat.le_of_eq hl)]
  exact List.take_prefix _ _

end Zip

def servedIn (es : List Event) : List (ReplySlot × Except Failure String) :=
  (es.filterMap Event.question?).zip (es.filterMap Event.answer?)

def Serving (es : List Event) : Printer → Prop
  | .reading slot => ∃ older text bytes, es = older ++ [.handled (.prompt text slot), .wrote bytes] ∧
      (older.filterMap Event.question?).length = (older.filterMap Event.answer?).length
  | .crashed => (es.filterMap Event.answer?).length ≤ (es.filterMap Event.question?).length
  | _ => (es.filterMap Event.question?).length = (es.filterMap Event.answer?).length

theorem Diary.serving (h : Diary es p) : Serving es p := by
  induction h with
  | blank => rfl
  | told _ hs _ _ ih => simpa [Serving, List.filterMap_cons, hs] using ih
  | asked _ _ ih => exact ⟨_, _, _, rfl, ih⟩
  | heard _ line ih =>
    obtain ⟨older, text, bytes, rfl, ih⟩ := ih
    simp [Serving, List.filterMap_cons, Message.slot?, ih]
  | failed _ failure ih =>
    obtain ⟨older, text, bytes, rfl, ih⟩ := ih
    simp [Serving, List.filterMap_cons, Message.slot?, ih]
  | exited _ _ ih => simpa [Serving, List.filterMap_cons, Message.slot?] using ih
  | choked _ m ih =>
    have hle := Nat.le_of_eq (Eq.symm ih)
    simp only [Serving, List.filterMap_append, List.length_append]
    exact Nat.le_trans hle (Nat.le_add_right _ _)
  | stopped _ hp ih => rcases hp with rfl | rfl <;> exact ih

theorem Serving.le (h : Serving es p) :
    (es.filterMap Event.answer?).length ≤ (es.filterMap Event.question?).length := by
  cases p with
  | reading slot =>
    obtain ⟨older, text, bytes, rfl, h⟩ := h
    simp [List.filterMap_cons, Message.slot?, h]
  | crashed => exact h
  | receiving | leaving | stopped => exact Nat.le_of_eq h.symm

/-- The line for a prompt is read when the prompt has been drawn, and before anything else. -/
def Located (es : List Event) (x : ReplySlot × Except Failure String) : Prop :=
  ∃ older text bytes newer,
    es = older ++ .handled (.prompt text x.1) :: .wrote bytes :: .read .printer x.2 :: newer

theorem Located.append {x : ReplySlot × Except Failure String} (h : Located es x) :
    Located (es ++ fs) x := by
  obtain ⟨older, text, bytes, newer, rfl⟩ := h
  exact ⟨older, text, bytes, newer ++ fs, by simp⟩

theorem servedIn_append (h : (es.filterMap Event.question?).length =
    (es.filterMap Event.answer?).length) : servedIn (es ++ fs) = servedIn es ++ servedIn fs := by
  simp only [servedIn, List.filterMap_append]
  exact List.zip_append h

theorem servedIn_read {text : String} {bytes : List UInt8} {result : Except Failure String}
    (hs : (older.filterMap Event.question?).length = (older.filterMap Event.answer?).length)
    (hq : fs.filterMap Event.question? = []) (ha : fs.filterMap Event.answer? = []) :
    servedIn (older ++ [.handled (.prompt text slot), .wrote bytes] ++ .read .printer result :: fs) =
      servedIn (older ++ [.handled (.prompt text slot), .wrote bytes]) ++ [(slot, result)] := by
  rw [List.append_assoc, servedIn_append hs, servedIn_append hs]
  simp [servedIn, List.filterMap_cons, Message.slot?, hq, ha]

theorem Serving.located_read {result : Except Failure String} (h : Serving es (.reading slot))
    (hl : ∀ x ∈ servedIn es, Located es x) (hq : fs.filterMap Event.question? = [])
    (ha : fs.filterMap Event.answer? = []) :
    ∀ x ∈ servedIn (es ++ .read .printer result :: fs),
      Located (es ++ .read .printer result :: fs) x := by
  obtain ⟨older, text, bytes, rfl, hs⟩ := h
  rw [servedIn_read hs hq ha]
  intro x hx
  rcases List.mem_append.1 hx with hx | hx
  · exact (hl x hx).append
  · rw [List.mem_singleton.1 hx]
    exact ⟨older, text, bytes, fs, by simp⟩

theorem Diary.located (h : Diary es p) : ∀ x ∈ servedIn es, Located es x := by
  have hquiet {es fs : List Event} (hs : Serving es .receiving)
      (ha : fs.filterMap Event.answer? = []) (ih : ∀ x ∈ servedIn es, Located es x) :
      ∀ x ∈ servedIn (es ++ fs), Located (es ++ fs) x := by
    intro x hx
    rw [servedIn_append hs, servedIn, servedIn, ha, List.zip_nil_right, List.append_nil] at hx
    exact (ih x hx).append
  induction h with
  | blank => exact nofun
  | told h _ _ _ ih => exact hquiet h.serving rfl ih
  | asked h _ ih => exact hquiet h.serving rfl ih
  | heard h line ih => exact h.serving.located_read ih rfl rfl
  | failed h failure ih => exact h.serving.located_read ih rfl rfl
  | exited h _ ih => exact hquiet h.serving rfl ih
  | choked h m ih => exact hquiet h.serving rfl ih
  | stopped _ _ ih => exact ih

namespace Console

variable {c d : Console} {id : TaskId} {more : Bool}

def served (c : Console) : List (ReplySlot × Except Failure String) :=
  servedIn c.events

theorem servedIn_duties (es : List Event) : servedIn (es.filter Event.isDuty) = servedIn es := by
  rw [servedIn, filterMap_duties fun _ _ => Event.isDuty_of_question?,
    filterMap_duties fun _ _ => Event.isDuty_of_answer?, servedIn]

theorem served_of_duties (h : d.duties = c.duties) : d.served = c.served := by
  rw [served, served, ← servedIn_duties, ← duties, h, duties, servedIn_duties]

theorem Attainable.serving (h : c.Attainable) : Serving c.duties c.printer :=
  h.diary.serving

theorem Attainable.unserved (h : c.Attainable) :
    (c.events.filterMap Event.answer?).length ≤ (c.events.filterMap Event.question?).length := by
  have hle := h.serving.le
  rwa [duties, filterMap_duties fun _ _ => Event.isDuty_of_answer?,
    filterMap_duties fun _ _ => Event.isDuty_of_question?] at hle

theorem Attainable.served_of_rest (h : c.Attainable) (he : c.events <+: d.events)
    (hr : d.events.filterMap Event.answer? = c.events.filterMap Event.answer?) :
    d.served = c.served := by
  obtain ⟨news, he⟩ := he
  rw [served, served, servedIn, servedIn, hr, ← he, List.filterMap_append]
  exact zip_append_left h.unserved

theorem Attainable.served_of_read {slot : ReplySlot} {result : Except Failure String}
    (h : c.Attainable) (hp : c.printer = .reading slot) (he : c.events <+: d.events)
    (hr : d.events.filterMap Event.answer? = c.events.filterMap Event.answer? ++ [result]) :
    d.served = c.served ++ [(slot, result)] := by
  obtain ⟨news, he⟩ := he
  have hs := h.serving
  rw [hp] at hs
  obtain ⟨older, text, bytes, hd, hs⟩ := hs
  have hq : c.events.filterMap Event.question? = older.filterMap Event.question? ++ [slot] := by
    rw [← filterMap_duties fun _ _ => Event.isDuty_of_question?, ← duties, hd,
      List.filterMap_append]
    simp [List.filterMap_cons, Message.slot?]
  have ha : c.events.filterMap Event.answer? = older.filterMap Event.answer? := by
    rw [← filterMap_duties fun _ _ => Event.isDuty_of_answer?, ← duties, hd,
      List.filterMap_append]
    simp [List.filterMap_cons]
  have hc : c.served = (older.filterMap Event.question?).zip (older.filterMap Event.answer?) := by
    rw [served, servedIn, hq, ha]
    exact zip_append_left (Nat.le_of_eq hs.symm)
  rw [hc, served, servedIn, hr, ← he, List.filterMap_append, hq, ha, List.append_assoc,
    List.zip_append hs]
  simp

theorem answers_eq (c : Console) : c.events.filterMap Event.answer? =
    c.reads.filterMap fun x => if x.1 = .printer then some x.2 else none := by
  rw [reads, List.filterMap_filterMap]
  refine List.filterMap_congr fun e _ => ?_
  cases e <;> rfl

theorem Attainable.served_of_reads (h : c.Attainable) (he : c.events <+: d.events)
    (hr : d.reads = c.reads) : d.served = c.served :=
  h.served_of_rest he (by rw [answers_eq, answers_eq, hr])

theorem Attainable.served_of_answer {slot : ReplySlot} {result : Except Failure String}
    (h : c.Attainable) (hp : c.printer = .reading slot) (he : c.events <+: d.events)
    (hr : d.reads = c.reads ++ [(.printer, result)]) : d.served = c.served ++ [(slot, result)] :=
  h.served_of_read hp he (by rw [answers_eq, answers_eq, hr, List.filterMap_append]; rfl)

/-! The events of a run only grow. -/

theorem Adds.grows {q : Event → Bool} (h : Adds q c d) : c.events <+: d.events := by
  obtain ⟨news, he, -⟩ := h
  exact ⟨news, he.symm⟩

theorem turn_grows (c : Console) (id : TaskId) : c.events <+: (c.turn id).1.events := by
  by_cases hp : id = .printer
  · subst hp
    exact (printerTurn_cases c).adds.grows
  · exact (c.turn_adds hp).grows

theorem act_grows (c : Console) (m : Move) : c.events <+: (c.act m).events := by
  cases m with
  | step id =>
    obtain ⟨ready, he⟩ := c.turn_eq_step id
    rw [act, he]
    exact c.turn_grows id
  | kill n =>
    rw [act, kill]
    split <;> exact List.prefix_refl _
  | raise s =>
    rw [act, raise]
    split <;> exact List.prefix_refl _
  | setSink s => exact ⟨_, (events_record _ _).symm⟩
  | start k interactive =>
    have hs := (c.supervise_cases k interactive).adds
    exact hs.grows.trans ⟨_, (events_record _ _).symm⟩
  | _ => exact List.prefix_refl _

theorem work_grows (c : Console) (id : TaskId) : c.events <+: (c.work id).events := by
  rcases c.work_cases id with ⟨s, request, a, -, -, -, he⟩ | ⟨-, he⟩ <;> rw [he]
  · exact (callTurn_cases c s request a).adds.grows
  · exact turn_grows { c with terminated := false } id

/-! Each prompt has a slot of its own. -/

theorem handled_questions (c : Console) :
    c.events.filterMap Event.question? = c.handled.filterMap Message.slot? := by
  rw [handled, List.filterMap_filterMap]
  exact List.filterMap_congr fun _ _ => rfl

/-- The prompts are served in the order in which they were accepted. -/
theorem Attainable.served_slots (h : c.Attainable) : c.served.map Prod.fst <+: c.prompts := by
  obtain ⟨d₀, hm⟩ := h.mail
  have hsent : c.accepted = c.handled ++ c.discarded ++ c.mailbox.items := hm.sent
  have hq : c.events.filterMap Event.question? <+: c.prompts := by
    rw [handled_questions, prompts, hsent, List.append_assoc, List.filterMap_append]
    exact List.prefix_append _ _
  exact (map_fst_zip_begins h.unserved).trans hq

theorem Attainable.served_answers (h : c.Attainable) :
    c.served.map Prod.snd = c.events.filterMap Event.answer? :=
  List.map_snd_zip h.unserved

end Console

end JobConsole
