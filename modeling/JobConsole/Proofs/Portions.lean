import Mathlib.Data.List.TakeWhile
import JobConsole.Proofs.Reader

namespace JobConsole

theorem Line.not_mem_of_cut? {bytes : List UInt8} (h : Line.cut? bytes = none) :
    Line.newline ∉ bytes := by
  unfold Line.cut? at h
  split at h
  · rename_i hd
    intro hm
    simpa using List.dropWhile_eq_nil_iff.1 hd _ hm
  · cases h

theorem Line.cut?_eq_some {bytes line rest : List UInt8} (h : Line.cut? bytes = some (line, rest)) :
    ∃ body, Line.newline ∉ body ∧ line = body ++ [Line.newline] ∧ bytes = line ++ rest := by
  have ha := Line.append_of_cut? h
  unfold Line.cut? at h
  split at h
  · cases h
  · rename_i b tail hd
    simp only [Option.some.injEq, Prod.mk.injEq] at h
    obtain ⟨rfl, rfl⟩ := h
    have hb : b = Line.newline := by
      have hw : bytes.dropWhile (· ≠ Line.newline) ≠ [] := hd ▸ List.cons_ne_nil b tail
      have hn := List.head_dropWhile_not (· ≠ Line.newline) hw
      simp only [hd, List.head_cons] at hn
      simpa using hn
    subst hb
    refine ⟨_, fun hm => ?_, rfl, ha.symm⟩
    have hm := List.mem_takeWhile_imp hm
    simp at hm

inductive Item
  | byte (b : UInt8)
  | fault (cause : String)

def Piece.items : Piece → List Item
  | .bytes data => data.map .byte
  | .fault cause => [.fault cause]

def itemsOf (pieces : List Piece) : List Item :=
  pieces.flatMap Piece.items

/-- One read: its input, its result and what it leaves. Only at the end of a closed input is there a
line without a line end. -/
inductive Portion (closed : Bool) : List Item → Except Failure String → List Item → Prop
  | line {body : List UInt8} {rest : List Item} (h : Line.newline ∉ body) :
      Portion closed ((body ++ [Line.newline]).map .byte ++ rest)
        (Line.ofBytes (body ++ [Line.newline])) rest
  | fault {body : List UInt8} {cause : String} {rest : List Item} (h : Line.newline ∉ body) :
      Portion closed (body.map .byte ++ .fault cause :: rest) (.error (.inputRead cause)) rest
  | last {body : List UInt8} (h : Line.newline ∉ body) (hb : body ≠ []) (hc : closed = true) :
      Portion closed (body.map .byte) (Line.ofBytes body) []
  | ended (hc : closed = true) : Portion closed [] (.error .inputClosed) []

theorem Portion.split {closed : Bool} {input rest : List Item} {result : Except Failure String}
    (h : Portion closed input result rest) : ∃ items, input = items ++ rest := by
  cases h with
  | line => exact ⟨_, rfl⟩
  | fault => exact ⟨_, (List.append_assoc _ [_] _).symm⟩
  | last => exact ⟨_, (List.append_nil _).symm⟩
  | ended => exact ⟨[], rfl⟩

inductive Gathers (closed : Bool) : List Item → Gathered → Prop
  | done {input : List Item} {pieces : List Piece} {result : Except Failure String}
      (h : Portion closed input result (itemsOf pieces)) :
      Gathers closed input ⟨pieces, [], some result⟩
  | rested {input : List Item} {taken : List UInt8} (h : Line.newline ∉ taken)
      (hi : input = taken.map .byte) : Gathers closed input ⟨[], taken, none⟩

theorem itemsOf_cons (p : Piece) (pieces : List Piece) :
    itemsOf (p :: pieces) = p.items ++ itemsOf pieces :=
  List.flatMap_cons

theorem portion_cut {closed : Bool} {taken data line rest : List UInt8} {pieces : List Piece}
    (h : Line.newline ∉ taken) (hcut : Line.cut? data = some (line, rest)) :
    Portion closed (taken.map .byte ++ itemsOf (.bytes data :: pieces))
      (Line.ofBytes (taken ++ line)) (rest.map .byte ++ itemsOf pieces) := by
  obtain ⟨body, hbody, rfl, rfl⟩ := Line.cut?_eq_some hcut
  have hn : Line.newline ∉ taken ++ body := by simp [h, hbody]
  have hr := @Portion.line closed (taken ++ body) (rest.map .byte ++ itemsOf pieces) hn
  have hi : taken.map Item.byte ++ itemsOf (.bytes (body ++ [Line.newline] ++ rest) :: pieces) =
      (taken ++ body ++ [Line.newline]).map .byte ++ (rest.map .byte ++ itemsOf pieces) := by
    simp [itemsOf_cons, Piece.items]
  rw [hi, ← List.append_assoc taken]
  exact hr

theorem gather_gathers {closed : Bool} {taken : List UInt8} {pieces : List Piece}
    (h : Line.newline ∉ taken) :
    Gathers closed (taken.map .byte ++ itemsOf pieces) (gather closed taken pieces) := by
  fun_induction gather closed taken pieces with
  | case1 taken hc =>
    apply Gathers.done
    split
    · rename_i ht
      subst ht
      exact .ended hc
    · rename_i ht
      rw [itemsOf, List.flatMap_nil, List.append_nil]
      exact .last h ht hc
  | case2 taken hc =>
    exact .rested h (by simp [itemsOf])
  | case3 taken cause pieces =>
    rw [itemsOf_cons]
    exact .done (.fault h)
  | case4 taken data pieces hcut ih =>
    have hn := Line.not_mem_of_cut? hcut
    have hi : taken.map Item.byte ++ itemsOf (.bytes data :: pieces) =
        (taken ++ data).map .byte ++ itemsOf pieces := by
      simp [itemsOf_cons, Piece.items]
    rw [hi]
    exact ih (by simp [h, hn])
  | case5 taken data pieces line hcut => exact .done (portion_cut h hcut)
  | case6 taken data pieces line rest hrest hcut => exact .done (portion_cut h hcut)

namespace LineReader

variable {ι : Type} {r : LineReader ι} {i j : ι}

def unread (r : LineReader ι) : List Item :=
  r.taken.map .byte ++ itemsOf r.source.pieces

def Clean (r : LineReader ι) : Prop :=
  Line.newline ∉ r.taken

theorem unread_feed (r : LineReader ι) (p : Piece) :
    unread { r with source := r.source.feed p } = r.unread ++ p.items := by
  unfold unread Source.feed
  split
  · simp [Piece.items]
  · simp [itemsOf]

theorem release_clean (r : LineReader ι) : r.release.1.Clean :=
  List.not_mem_nil

/-- What going on with a read does to the input. -/
inductive Takes (r : LineReader ι) : Resumed ι → Prop
  | done {p : Resumed ι} {result : Except Failure String} (hp : p.result = some result)
      (hr : Portion r.source.closed r.unread result p.reader.unread) (hc : p.reader.Clean)
      (hs : p.reader.source.closed = r.source.closed) : Takes r p
  | rested {p : Resumed ι} (hp : p.result = none) (hr : p.reader.unread = r.unread)
      (hc : p.reader.Clean) (hs : p.reader.source.closed = r.source.closed) : Takes r p

theorem collect_takes (h : r.Clean) (i : ι) : Takes r (r.collect i) := by
  have hg : Gathers r.source.closed r.unread (gather r.source.closed r.taken r.source.pieces) :=
    gather_gathers h
  unfold collect
  dsimp only
  generalize gather r.source.closed r.taken r.source.pieces = g at hg ⊢
  obtain ⟨pieces, taken, result⟩ := g
  cases result with
  | some result =>
    cases hg with
    | done hr => exact .done rfl hr (release_clean _) rfl
  | none =>
    cases hg with
    | rested hn hi => exact .rested rfl (by rw [hi]; simp [unread, itemsOf]) hn rfl

variable [DecidableEq ι]

theorem resume_takes (h : r.Clean) (i : ι) : Takes r (r.resume i) := by
  unfold resume
  split
  · exact collect_takes h i
  · split
    · exact collect_takes h i
    · split <;> exact .rested rfl rfl h rfl

theorem Clean.resume (h : r.Clean) (i : ι) : (r.resume i).reader.Clean := by
  cases resume_takes h i with
  | done _ _ hc => exact hc
  | rested _ _ hc => exact hc

theorem unread_abandon (hi : r.owner ≠ some i) : (r.abandon i).1.unread = r.unread := by
  unfold abandon
  rw [if_neg hi]
  rfl

theorem Clean.abandon (h : r.Clean) (i : ι) : (r.abandon i).1.Clean := by
  unfold LineReader.abandon
  split
  · exact r.release_clean
  · exact h

/-! The line at the lock. -/

theorem rest_line (h : (r.resume i).result = none) :
    (r.resume i).reader.owner = some (r.owner.getD i) ∧
      (∀ j ∈ r.waiting, j ∈ (r.resume i).reader.waiting) ∧
        (r.owner.getD i = i ∨ i ∈ (r.resume i).reader.waiting) := by
  have hr := resume_resumption r i
  generalize r.resume i = p at h hr ⊢
  cases hr with
  | stalled ho _ ho' hw =>
    have hi : r.owner.getD i = i := by rcases ho with ho | ho <;> simp [ho]
    exact ⟨by rw [hi]; exact ho', fun j hj => hw ▸ hj, .inl hi⟩
  | done => cases h
  | inLine ho _ hw => exact ⟨by simp [ho], fun _ hj => hj, .inr hw⟩
  | join ho => exact ⟨by simp [ho], fun _ hj => List.mem_append_left _ hj, .inr (by simp)⟩

theorem done_line {result : Except Failure String} (h : (r.resume i).result = some result) :
    (r.owner = none ∨ r.owner = some i) ∧ (r.resume i).reader.owner = r.waiting.head? := by
  have hr := resume_resumption r i
  generalize r.resume i = p at h hr ⊢
  cases hr with
  | done ho hw => exact ⟨ho, by rw [← hw]; rfl⟩
  | _ => cases h

theorem Fair.owner_ne {result : Except Failure String} (hf : r.Fair)
    (h : (r.resume i).result = some result) : (r.resume i).reader.owner ≠ some i := by
  have hr := resume_resumption r i
  generalize r.resume i = p at h hr ⊢
  cases hr with
  | done ho hw ho' =>
    have hd := (hf.own ho ho' hw).distinct
    rw [ho'] at hd
    exact fun hi => (List.nodup_cons.1 hd).1 (List.mem_of_head? hi)
  | _ => cases h

end LineReader

end JobConsole
