import Mathlib.Data.List.Basic
import JobConsole.Proofs.Diary

namespace JobConsole

def Event.farewell? : Event → Option Ending
  | ending .printer e => some e
  | _ => none

def Answered (duties : List Event) : Prop :=
  ∀ older text slot newer, duties = older ++ .handled (.prompt text slot) :: newer →
    ∃ bytes line newest, newer = .wrote bytes :: .read .printer (.ok line) :: newest

/-- All that the printer has done by the time it asks the process to end. -/
inductive Farewell : List Event → Ending → Prop
  | exit {es : List Event} {text : String} {code : ExitCode} {d : Display} {r : Display.Drawn}
      (h : Diary es .receiving) (hd : d.draw .exit text = some r) :
      Farewell (es ++ [.handled (.exit text code), .wrote r.bytes]) (.exit code)
  | abort {es : List Event} {slot : ReplySlot} (h : Diary es (.reading slot)) (failure : Failure) :
      Farewell (es ++ [.read .printer (.error failure)]) (.abort failure)

variable {es fs ds older newer : List Event} {p : Printer} {e : Event} {ending : Ending}

theorem Event.isDuty_of_farewell? (h : e.farewell? = some ending) : e.isDuty = true := by
  cases e with
  | ending i e => cases i <;> first | rfl | cases h
  | _ => cases h

theorem Event.isDuty_of_handled? {m : Message} (h : e.handled? = some m) : e.isDuty = true := by
  cases e <;> first | rfl | cases h

theorem filterMap_duties {α : Type} {f : Event → Option α}
    (h : ∀ e x, f e = some x → e.isDuty = true) (es : List Event) :
    (es.filter Event.isDuty).filterMap f = es.filterMap f := by
  rw [List.filterMap_filter]
  apply List.filterMap_congr
  intro e _
  cases hf : f e with
  | none => simp
  | some x => simp [h e x hf]

theorem filterMap_handled (es : List Event) :
    (es.filter Event.isDuty).filterMap Event.handled? = es.filterMap Event.handled? :=
  filterMap_duties (fun _ _ => Event.isDuty_of_handled?) es

theorem filterMap_farewell (es : List Event) :
    (es.filter Event.isDuty).filterMap Event.farewell? = es.filterMap Event.farewell? :=
  filterMap_duties (fun _ _ => Event.isDuty_of_farewell?) es

/-! Answered prompts. -/

def Followed (Q : List Event → Prop) (es : List Event) : Prop :=
  ∀ older text slot newer, es = older ++ .handled (.prompt text slot) :: newer → Q newer

theorem Followed.append {Q : List Event → Prop} (hq : ∀ xs ys, Q xs → Q (xs ++ ys))
    (h : Followed Q es) (g : Followed Q fs) : Followed Q (es ++ fs) := by
  intro older text slot newer he
  rcases List.append_eq_append_iff.1 he with ⟨as, rfl, hf⟩ | ⟨as, rfl, hf⟩
  · exact g as text slot newer hf
  · cases as with
    | nil => exact g [] text slot newer hf.symm
    | cons x as =>
      obtain ⟨rfl, rfl⟩ := List.cons.inj hf
      exact hq as fs (h older text slot as rfl)

theorem followed_of_unasked {Q : List Event → Prop}
    (h : ∀ text slot, .handled (.prompt text slot) ∉ es) : Followed Q es := by
  rintro older text slot newer rfl
  exact absurd (List.mem_append_right _ List.mem_cons_self) (h text slot)

theorem followed_cons {Q : List Event → Prop} {x : Event} (hq : Q es)
    (h : ∀ text slot, .handled (.prompt text slot) ∉ es) : Followed Q (x :: es) := by
  rintro (_ | ⟨y, older⟩) text slot newer he
  · obtain ⟨-, rfl⟩ := List.cons.inj he
    exact hq
  · exact followed_of_unasked h older text slot newer (List.cons.inj he).2

theorem Answered.append (h : Answered es) (g : Answered fs) : Answered (es ++ fs) := by
  refine Followed.append (fun xs ys hx => ?_) h g
  obtain ⟨bytes, line, newest, rfl⟩ := hx
  exact ⟨bytes, line, newest ++ ys, rfl⟩

theorem answered_of_unasked (h : ∀ text slot, .handled (.prompt text slot) ∉ es) : Answered es :=
  followed_of_unasked h

theorem answered_of_read (text : String) (slot : ReplySlot) (bytes : List UInt8) (line : String) :
    Answered [.handled (.prompt text slot), .wrote bytes, .read .printer (.ok line)] :=
  followed_cons ⟨bytes, line, [], rfl⟩ (by simp)

def Settled (es : List Event) : Printer → Prop
  | .receiving => Answered es
  | .reading slot => ∃ older text bytes, es = older ++ [.handled (.prompt text slot), .wrote bytes] ∧
      Answered older
  | _ => True

theorem Diary.settled (h : Diary es p) : Settled es p := by
  induction h with
  | blank => exact answered_of_unasked nofun
  | @told es m d r _ hs _ _ ih =>
    refine Answered.append ih (answered_of_unasked fun text slot hm => ?_)
    simp only [List.mem_cons, Event.handled.injEq, List.not_mem_nil, or_false] at hm
    rcases hm with rfl | hm
    · cases hs
    · cases hm
  | asked _ _ ih => exact ⟨_, _, _, rfl, ih⟩
  | @heard es slot _ line ih =>
    obtain ⟨older, text, bytes, rfl, ho⟩ := ih
    rw [Settled, List.append_assoc]
    exact ho.append (answered_of_read text slot bytes line)
  | _ => trivial

/-! Endings. -/

theorem Diary.unended (h : Diary es p) (hp : p = .receiving ∨ ∃ slot, p = .reading slot) :
    ∀ m ∈ es.filterMap Event.handled?, m.code? = none := by
  induction h with
  | blank => exact nofun
  | @told es m d r _ _ hc _ ih =>
    simp only [List.filterMap_append, List.mem_append]
    rintro m' (hm | hm)
    · exact ih (.inl rfl) m' hm
    · obtain rfl : m' = m := by simpa [Event.handled?] using hm
      exact hc
  | asked _ _ ih =>
    simp only [List.filterMap_append, List.mem_append]
    rintro m (hm | hm)
    · exact ih (.inl rfl) m hm
    · obtain rfl := by simpa [Event.handled?] using hm
      rfl
  | heard _ line ih =>
    simp only [List.filterMap_append, List.mem_append]
    rintro m (hm | hm)
    · exact ih (.inr ⟨_, rfl⟩) m hm
    · simp [Event.handled?] at hm
  | _ => simp at hp

inductive Ends (es : List Event) (p : Printer) : Prop
  | open (h : es.filterMap Event.farewell? = []) (hp : p ≠ .leaving)
  | closed {ds : List Event} {ending : Ending} (he : es = ds ++ [.ending .printer ending])
      (hd : ds.filterMap Event.farewell? = []) (hf : Farewell ds ending)
      (hp : p = .leaving ∨ p = .stopped)

theorem Diary.ends (h : Diary es p) : Ends es p := by
  have hfar {es fs : List Event} {p : Printer} (h : Ends es p) (hl : p ≠ .leaving)
      (hs : p ≠ .stopped) (hf : fs.filterMap Event.farewell? = []) :
      (es ++ fs).filterMap Event.farewell? = [] := by
    cases h with
    | «open» h => rw [List.filterMap_append, h, hf]; rfl
    | closed _ _ _ hp => exact (hp.elim hl hs).elim
  induction h with
  | blank => exact .open rfl nofun
  | told _ _ _ _ ih => exact .open (hfar ih nofun nofun rfl) nofun
  | asked _ _ ih => exact .open (hfar ih nofun nofun rfl) nofun
  | heard _ line ih => exact .open (hfar ih nofun nofun rfl) nofun
  | @failed es slot h failure ih =>
    have he := List.append_assoc es [.read .printer (.error failure)]
      [.ending .printer (.abort failure)]
    exact .closed he.symm (hfar ih nofun nofun rfl) (.abort h failure) (.inl rfl)
  | @exited es text code d r h hd ih =>
    have he := List.append_assoc es [.handled (.exit text code), .wrote r.bytes]
      [.ending .printer (.exit code)]
    exact .closed he.symm (hfar ih nofun nofun rfl) (.exit h hd) (.inl rfl)
  | choked _ m ih => exact .open (hfar ih nofun nofun rfl) nofun
  | stopped _ _ ih =>
    cases ih with
    | «open» h _ => exact .open h nofun
    | closed he hd hf _ => exact .closed he hd hf (.inr rfl)

theorem append_cons_eq_concat {α : Type} {xs ys zs : List α} {x z : α}
    (h : xs ++ x :: ys = zs ++ [z]) :
    xs = zs ∧ x = z ∧ ys = [] ∨ ∃ ys', ys = ys' ++ [z] ∧ xs ++ x :: ys' = zs := by
  rcases List.eq_nil_or_concat ys with rfl | ⟨ys, y, rfl⟩
  · obtain ⟨rfl, hz⟩ := List.append_inj' h rfl
    exact .inl ⟨rfl, List.singleton_inj.1 hz, rfl⟩
  · have hc : (xs ++ x :: ys) ++ [y] = zs ++ [z] := by simpa using h
    obtain ⟨rfl, hz⟩ := List.append_inj' hc rfl
    exact .inr ⟨ys, by rw [List.concat_eq_append, List.singleton_inj.1 hz], rfl⟩

theorem Diary.farewell (h : Diary es p) (he : es = older ++ .ending .printer ending :: newer) :
    newer = [] ∧ Farewell older ending := by
  cases h.ends with
  | «open» hn => simp [he, Event.farewell?] at hn
  | @closed ds e hes hd hf =>
    have hx : Event.ending .printer ending ∉ ds := by
      intro hm
      have hf := List.filterMap_eq_nil_iff.1 hd _ hm
      cases hf
    rcases append_cons_eq_concat (he.symm.trans hes) with ⟨rfl, hee, rfl⟩ | ⟨ys, -, rfl⟩
    · cases hee
      exact ⟨rfl, hf⟩
    · exact absurd (List.mem_append_right _ List.mem_cons_self) hx

namespace Console

variable {c : Console}

def accepted (c : Console) : List Message :=
  c.events.filterMap Event.accepted?

def farewells (c : Console) : List Ending :=
  c.events.filterMap Event.farewell?

structure Final (d₀ : Display) (c : Console) : Prop where
  once : c.farewells.length ≤ 1
  /-- The exit is the first one that was accepted, and comes behind all that was accepted before:
  it is drawn, and the lines for all prompts have been read. -/
  exit : ∀ older code newer, c.events = older ++ .ending .printer (.exit code) :: newer →
    ∃ before text after, c.accepted = before ++ .exit text code :: after ∧
      (∀ m ∈ before, m.code? = none) ∧
      older.filterMap Event.handled? = before ++ [.exit text code] ∧
      Answered (older.filter Event.isDuty) ∧
      ∃ front drawn back, older = front ++ .handled (.exit text code) :: .wrote drawn.bytes :: back ∧
        (d₀.afterAll (front.filterMap Event.print?)).draw .exit text = some drawn ∧
          back.filter Event.isDuty = []
  silent : ∀ older ending newer, c.events = older ++ .ending .printer ending :: newer →
    newer.filterMap Event.handled? = [] ∧ newer.flatMap Event.bytes = []

theorem duties_farewell (h : c.events = older ++ .ending .printer ending :: newer) :
    c.duties = older.filter Event.isDuty ++
      .ending .printer ending :: newer.filter Event.isDuty := by
  rw [duties, h, List.filter_append, List.filter_cons_of_pos rfl]

theorem silent_of_idle (h : newer.filter Event.isDuty = []) :
    newer.filterMap Event.handled? = [] ∧ newer.flatMap Event.bytes = [] := by
  constructor
  · rw [← filterMap_handled, h]
    rfl
  · apply List.flatMap_eq_nil_iff.2
    intro e hm
    cases e with
    | wrote bytes => exact absurd rfl (List.filter_eq_nil_iff.1 h _ hm)
    | _ => rfl

theorem handled_of_silent (h : c.events = older ++ .ending .printer ending :: newer)
    (hn : newer.filterMap Event.handled? = []) : c.handled = older.filterMap Event.handled? := by
  rw [handled, h, List.filterMap_append, List.filterMap_cons_none rfl, hn, List.append_nil]

theorem drawn_of_exit {d₀ : Display} {text : String} {code : ExitCode} {bytes : List UInt8}
    (h : DrawnOn d₀ (older ++ .ending .printer ending :: newer))
    (hd : older.filter Event.isDuty = ds ++ [.handled (.exit text code), .wrote bytes]) :
    ∃ front drawn back, older = front ++ .handled (.exit text code) :: .wrote drawn.bytes :: back ∧
      (d₀.afterAll (front.filterMap Event.print?)).draw .exit text = some drawn ∧
        back.filter Event.isDuty = [] := by
  obtain ⟨xs, ys, rfl, -, hys⟩ := List.filter_eq_append_iff.1 hd
  obtain ⟨idle, zs, rfl, -, -, hzs⟩ := List.filter_eq_cons_iff.1 hys
  obtain ⟨drawn, hr⟩ : ∃ drawn, (d₀.afterAll ((xs ++ idle).filterMap Event.print?)).draw .exit
      text = some drawn := ⟨_, rfl⟩
  obtain ⟨rest, hrest⟩ := h (xs ++ idle) (.exit text code)
    (zs ++ .ending .printer ending :: newer) drawn (by simp) hr
  cases zs with
  | nil => cases hzs
  | cons z back =>
    obtain ⟨rfl, -⟩ := List.cons.inj hrest
    refine ⟨xs ++ idle, drawn, back, by simp, hr, ?_⟩
    rw [List.filter_cons_of_pos rfl] at hzs
    exact (List.cons.inj hzs).2

theorem final_of_course {settings : Settings} {jobs : List Job} {source : Source} {sink : Sink}
    {c₀ : Console} {xs : List Stride} (h₀ : new? settings jobs source sink = some c₀)
    (h : Course c₀ xs c) : Final { sink } c := by
  have hd := (h.attainable (.new h₀)).diary
  have hm := h.mail h₀
  constructor
  case once =>
    have hf : c.farewells = c.duties.filterMap Event.farewell? := (filterMap_farewell _).symm
    rw [hf]
    cases hd.ends with
    | «open» hn => simp [hn]
    | closed he hn => simp [he, hn, Event.farewell?]
  case silent =>
    intro older ending newer he
    exact silent_of_idle (hd.farewell (duties_farewell he)).1
  case exit =>
    intro older code newer he
    obtain ⟨hnone, hf⟩ := hd.farewell (duties_farewell he)
    have hall := handled_of_silent he (silent_of_idle hnone).1
    have hdrawn : DrawnOn { sink } (older ++ .ending .printer (.exit code) :: newer) :=
      he ▸ hm.drawn
    generalize hduties : older.filter Event.isDuty = ds at hf
    cases hf with
    | @exit es text _ d r hes =>
      have hlast : older.filterMap Event.handled? =
          es.filterMap Event.handled? ++ [.exit text code] := by
        rw [← filterMap_handled, hduties, List.filterMap_append]
        rfl
      refine ⟨es.filterMap Event.handled?, text, c.discarded ++ c.mailbox.items, ?_,
        hes.unended (.inl rfl), hlast, ?_, drawn_of_exit hdrawn hduties⟩
      · have hsent : c.accepted = c.handled ++ c.discarded ++ c.mailbox.items := hm.sent
        rw [hsent, hall, hlast, List.append_assoc, List.append_assoc]
        rfl
      · exact Answered.append hes.settled (answered_of_unasked (by simp))

def race : List Stride :=
  ([.spawn [.prompt "?", .exit "a" ⟨3⟩], .spawn [.exit "b" ⟨4⟩], .step (.producer 0),
    .step (.producer 1), .step .printer, .feed (.bytes [121, 10]), .step .printer,
    .step (.producer 1), .step (.producer 0), .step (.producer 0), .step .printer,
    .step .printer, .step (.producer 0)] : List Move).map .move

theorem final_of_race : ∃ c₀, new? { mailboxCapacity := 1 } [] {} {} = some c₀ ∧
    (c₀.follow race).farewells = [.exit ⟨4⟩] ∧ Final {} (c₀.follow race) :=
  ⟨_, rfl, by decide,
    @final_of_course _ { mailboxCapacity := 1 } [] {} {} _ _ rfl (.of_lawful (by decide))⟩

end Console

end JobConsole
