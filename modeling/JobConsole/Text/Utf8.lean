/-!
UTF-8: the bytes of a text, the text of bytes, and the place where bytes stop being text. Main
statement: decoding inverts encoding, and nothing else is decoded.
-/

namespace JobConsole.Utf8

/-- What makes bytes undecodable. The index is that of the first byte of the first bad sequence. -/
inductive Fault
  /-- `length` bytes begin a sequence that the next byte, if any, cannot continue. -/
  | invalid (length index : Nat)
  /-- The bytes end inside a sequence that is sound so far. -/
  | incomplete (index : Nat)
  deriving DecidableEq, Repr

def Fault.message : Fault → String
  | .invalid length index => s!"invalid utf-8 sequence of {length} bytes from index {index}"
  | .incomplete index => s!"incomplete utf-8 byte sequence from index {index}"

def encode (text : List Char) : List UInt8 :=
  text.flatMap String.utf8EncodeChar

theorem encode_append (s t : List Char) : encode (s ++ t) = encode s ++ encode t :=
  List.flatMap_append

structure Range where
  low : UInt8
  high : UInt8

def Range.holds (r : Range) (b : UInt8) : Bool :=
  r.low ≤ b && b ≤ r.high

def continuation : Range := ⟨0x80, 0xBF⟩

/-- The ranges of the bytes that must follow a first byte. Overlong forms, surrogates and values
above the last scalar are ruled out by the second byte. -/
def following (b : UInt8) : Option (List Range) :=
  if b < 0x80 then some []
  else if b < 0xC2 then none
  else if b < 0xE0 then some [continuation]
  else if b = 0xE0 then some [⟨0xA0, 0xBF⟩, continuation]
  else if b = 0xED then some [⟨0x80, 0x9F⟩, continuation]
  else if b < 0xF0 then some [continuation, continuation]
  else if b = 0xF0 then some [⟨0x90, 0xBF⟩, continuation, continuation]
  else if b < 0xF4 then some [continuation, continuation, continuation]
  else if b = 0xF4 then some [⟨0x80, 0x8F⟩, continuation, continuation]
  else none

/-- Looks for the first bad sequence. The current one began at `index`, has `length` bytes so far
and still needs bytes in the ranges `owed`. -/
def locate (index length : Nat) : List Range → List UInt8 → Fault
  | _, [] => .incomplete index
  | [], b :: bytes =>
    match following b with
    | none => .invalid 1 (index + length)
    | some owed => locate (index + length) 1 owed bytes
  | r :: owed, b :: bytes =>
    if r.holds b then locate index (length + 1) owed bytes else .invalid length index

def decode (bytes : List UInt8) : Except Fault String :=
  match String.fromUTF8? bytes.toByteArray with
  | some text => .ok text
  | none => .error (locate 0 0 [] bytes)

theorem toByteArray_encode (text : String) :
    (encode text.toList).toByteArray = text.toByteArray := by
  change List.utf8Encode text.toList = _
  rw [← String.toByteArray_ofList, String.ofList_toList]

theorem toByteArray_injective {a b : List UInt8} (h : a.toByteArray = b.toByteArray) : a = b := by
  have := congrArg (·.data.toList) h
  simpa [List.data_toByteArray] using this

theorem decode_eq_ok_iff {bytes : List UInt8} {text : String} :
    decode bytes = .ok text ↔ encode text.toList = bytes := by
  unfold decode String.fromUTF8?
  constructor
  · intro h
    split at h
    · rename_i found hf
      split at hf
      · injection h with h
        injection hf with hf
        subst h hf
        exact toByteArray_injective (toByteArray_encode _)
      · simp at hf
    · simp at h
  · intro h
    have hb : bytes.toByteArray = text.toByteArray := by rw [← h, toByteArray_encode]
    have hv : bytes.toByteArray.IsValidUTF8 := hb ▸ text.isValidUTF8
    simp only [hv, dif_pos]
    congr 1
    exact String.toByteArray_inj.1 hb

end JobConsole.Utf8
