import Mathlib.Data.List.Basic
import Mathlib.Data.List.Lex
import Mathlib.Data.Nat.Log
import Mathlib.Tactic.Ring

/-!
# CBOR values and their preferred serialization

Values are encoded with definite lengths and the shortest form of every length
and integer. Floats are written in one of three widths; which one is a
parameter of the encoding, since encoders differ only in how they test that a
narrower float is exact.
-/

namespace PmxAgents.Lib.Cbor

abbrev Bytes := List UInt8

/-- The UTF-8 bytes of a text. -/
def utf8 (s : String) : Bytes := s.toByteArray.data.toList

theorem utf8_injective : Function.Injective utf8 := by
  intro s t h
  apply String.toByteArray_inj.mp
  exact ByteArray.ext (Array.toList_inj.mp h)

/-- The text of its UTF-8 bytes; empty when the bytes are those of no text. -/
def ofUtf8 (b : Bytes) : String := (String.fromUTF8? ⟨b.toArray⟩).getD ""

@[simp] theorem ofUtf8_utf8 (s : String) : ofUtf8 (utf8 s) = s := by
  have hbytes : (⟨(utf8 s).toArray⟩ : ByteArray) = s.toByteArray := by
    simp [utf8]
  rw [ofUtf8, hbytes, String.fromUTF8?, dif_pos s.isValidUTF8]
  rfl

theorem utf8_ofList (l : List Char) :
    utf8 (String.ofList l) = l.flatMap String.utf8EncodeChar := by
  rw [utf8, String.toByteArray_ofList, List.utf8Encode, List.data_toByteArray, List.toList_toArray]

/-! ## Big-endian numbers -/

/-- The last `k` bytes of a number, most significant first. -/
def be : Nat → Nat → Bytes
  | 0, _ => []
  | k + 1, n => be k (n / 256) ++ [UInt8.ofNat n]

/-! ## Heads -/

/-- The three float widths of the format. -/
inductive FloatWidth where
  | half
  | single
  | double
  deriving DecidableEq, Repr

def FloatWidth.bytes : FloatWidth → Nat
  | .half => 2
  | .single => 4
  | .double => 8

def FloatWidth.code : FloatWidth → Nat
  | .half => 25
  | .single => 26
  | .double => 27

/-- A float as its bits in one of the widths. -/
structure FloatBits where
  width : FloatWidth
  bits : Nat
  fits : bits < 256 ^ width.bytes
  deriving DecidableEq, Repr

/-- The conversions between the float widths, on their bits. -/
structure FloatConversions where
  toHalf : UInt64 → UInt16
  ofHalf : UInt16 → UInt64
  toSingle : UInt64 → UInt32
  ofSingle : UInt32 → UInt64

/-- The narrowest width that converts back to the same bits. -/
def FloatConversions.narrowest (c : FloatConversions) (bits : UInt64) : FloatBits :=
  if c.ofHalf (c.toHalf bits) = bits then
    ⟨.half, (c.toHalf bits).toNat, by simpa [FloatWidth.bytes] using (c.toHalf bits).toNat_lt⟩
  else if c.ofSingle (c.toSingle bits) = bits then
    ⟨.single, (c.toSingle bits).toNat, by
      simpa [FloatWidth.bytes] using (c.toSingle bits).toNat_lt⟩
  else ⟨.double, bits.toNat, by simpa [FloatWidth.bytes] using bits.toNat_lt⟩

/-- The simple values without an argument. -/
inductive Simple where
  | false
  | true
  | null
  deriving DecidableEq, Repr

def Simple.code : Simple → Nat
  | .false => 20
  | .true => 21
  | .null => 22

/-- What precedes the body of an item: a major type with its argument, a simple
value, or a float. -/
inductive Head where
  | arg (major : Fin 6) (n : Nat)
  | simple (s : Simple)
  | float (f : FloatBits)
  deriving DecidableEq, Repr

/-- The five low bits that announce an argument. -/
def info (n : Nat) : Nat :=
  if n < 24 then n else if n < 256 ^ 1 then 24 else if n < 256 ^ 2 then 25
  else if n < 256 ^ 4 then 26 else 27

/-- The number of bytes the argument takes after the initial byte. -/
def width (n : Nat) : Nat :=
  if n < 24 then 0 else if n < 256 ^ 1 then 1 else if n < 256 ^ 2 then 2
  else if n < 256 ^ 4 then 4 else 8

namespace Head

/-- The three high bits of the initial byte. -/
def major : Head → Nat
  | .arg m _ => m
  | .simple _ => 7
  | .float _ => 7

/-- The five low bits of the initial byte. -/
def low : Head → Nat
  | .arg _ n => info n
  | .simple s => s.code
  | .float f => f.width.code

/-- The bytes after the initial byte. -/
def trail : Head → Bytes
  | .arg _ n => be (Cbor.width n) n
  | .simple _ => []
  | .float f => be f.width.bytes f.bits

/-- Encode a head in its shortest form. -/
def encode (h : Head) : Bytes := UInt8.ofNat (h.major * 32 + h.low) :: h.trail

end Head

/-! ## Values -/

/-- The data model: integers, strings, arrays, maps as pair lists in the order
they are written, booleans, null, and floats as the bits of a binary64. -/
inductive Value where
  | int (i : Int)
  | bytes (b : Bytes)
  | text (s : String)
  | array (xs : List Value)
  | map (kvs : List (Value × Value))
  | bool (b : Bool)
  | null
  | float (bits : UInt64)

/-- The head of a value; `fl` chooses the width of a float. -/
def Value.head (fl : UInt64 → FloatBits) : Value → Head
  | .int i => if 0 ≤ i then .arg 0 i.toNat else .arg 1 (-1 - i).toNat
  | .bytes b => .arg 2 b.length
  | .text s => .arg 3 (utf8 s).length
  | .array xs => .arg 4 xs.length
  | .map kvs => .arg 5 kvs.length
  | .bool true => .simple .true
  | .bool false => .simple .false
  | .null => .simple .null
  | .float bits => .float (fl bits)

mutual

/-- The encoding of a value. -/
def Value.encode (fl : UInt64 → FloatBits) : Value → Bytes
  | .int i => ((Value.int i).head fl).encode
  | .bytes b => ((Value.bytes b).head fl).encode ++ b
  | .text s => ((Value.text s).head fl).encode ++ utf8 s
  | .array xs => ((Value.array xs).head fl).encode ++ encodeList fl xs
  | .map kvs => ((Value.map kvs).head fl).encode ++ encodePairs fl kvs
  | .bool b => ((Value.bool b).head fl).encode
  | .null => (Value.null.head fl).encode
  | .float bits => ((Value.float bits).head fl).encode

/-- The encodings of the elements of an array, in order. -/
def encodeList (fl : UInt64 → FloatBits) : List Value → Bytes
  | [] => []
  | x :: xs => x.encode fl ++ encodeList fl xs

/-- The encodings of the pairs of a map, in the order given. -/
def encodePairs (fl : UInt64 → FloatBits) : List (Value × Value) → Bytes
  | [] => []
  | (k, v) :: rest => k.encode fl ++ (v.encode fl ++ encodePairs fl rest)

end

mutual

/-- Every length and integer of the value fits into the format. -/
def Value.Fits : Value → Prop
  | .int i => -(256 ^ 8) ≤ i ∧ i < 256 ^ 8
  | .bytes b => b.length < 256 ^ 8
  | .text s => (utf8 s).length < 256 ^ 8
  | .array xs => xs.length < 256 ^ 8 ∧ FitsList xs
  | .map kvs => kvs.length < 256 ^ 8 ∧ FitsPairs kvs
  | .bool _ => True
  | .null => True
  | .float _ => True

def FitsList : List Value → Prop
  | [] => True
  | x :: xs => x.Fits ∧ FitsList xs

def FitsPairs : List (Value × Value) → Prop
  | [] => True
  | (k, v) :: rest => k.Fits ∧ v.Fits ∧ FitsPairs rest

end

/-!
## The order of encoded map keys

Deterministic encoders sort the pairs of a map by the bytes of the encoded keys. For text keys the
head carries the length first, so the order is by length and only then by the bytes of the text.
-/

/-- Bytewise lexicographic order, a proper prefix first. -/
def BytesLt (a b : Bytes) : Prop := a.map UInt8.toNat < b.map UInt8.toNat

def BytesLe (a b : Bytes) : Prop := a.map UInt8.toNat ≤ b.map UInt8.toNat

instance (a b : Bytes) : Decidable (BytesLe a b) :=
  inferInstanceAs (Decidable (a.map UInt8.toNat ≤ b.map UInt8.toNat))

/-- The order of texts by their bytes. -/
def LexLe (s t : String) : Prop := BytesLe (utf8 s) (utf8 t)

/-- The order of texts by length first and by their bytes within one length. -/
def LenLe (s t : String) : Prop :=
  (utf8 s).length < (utf8 t).length ∨
    (utf8 s).length = (utf8 t).length ∧ BytesLe (utf8 s) (utf8 t)

instance : DecidableRel LexLe := fun _ _ => inferInstanceAs (Decidable (BytesLe _ _))

instance : DecidableRel LenLe := fun _ _ =>
  inferInstanceAs (Decidable (_ ∨ _ ∧ BytesLe _ _))

end PmxAgents.Lib.Cbor
