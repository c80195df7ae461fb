import PmxAgents.Lib.Cbor

/-!
# Hexadecimal text

Decoding works on the bytes of the text, as the decoders of the modelled
languages do: an odd number of bytes is refused first, then the first byte that
is not a hexadecimal digit is reported with its position.
-/

namespace PmxAgents.Lib.Hex

open Cbor

inductive HexError where
  | oddLength
  | invalidHexCharacter (c : UInt8) (index : Nat)
  deriving DecidableEq, Repr

/-- The value of a hexadecimal digit, in either case. -/
def digit (c : UInt8) : Option UInt8 :=
  if 0x30 ≤ c ∧ c ≤ 0x39 then some (c - 0x30)
  else if 0x61 ≤ c ∧ c ≤ 0x66 then some (c - 0x61 + 10)
  else if 0x41 ≤ c ∧ c ≤ 0x46 then some (c - 0x41 + 10)
  else none

def val (c : UInt8) (index : Nat) : Except HexError UInt8 :=
  match digit c with
  | some v => .ok v
  | none => .error (.invalidHexCharacter c index)

/-- Decode digit pairs; `index` is the position of the first of them. -/
def decodePairs : Nat → Bytes → Except HexError Bytes
  | index, hi :: lo :: rest => do
      let h ← val hi index
      let l ← val lo (index + 1)
      let bytes ← decodePairs (index + 2) rest
      return (h * 16 + l) :: bytes
  | _, [_] => .error .oddLength
  | _, [] => .ok []

def decode (s : String) : Except HexError Bytes :=
  if (utf8 s).length % 2 = 1 then .error .oddLength else decodePairs 0 (utf8 s)

/-- Why a decoder that works from the front refuses a text. -/
inductive StringError where
  | invalidByte (c : UInt8)
  | length
  deriving DecidableEq, Repr

/-- Decode from the front: of a bad digit and an odd length the first one is reported. -/
def decodeString : Bytes → Except StringError Bytes
  | hi :: lo :: rest =>
      match digit hi, digit lo with
      | none, _ => .error (.invalidByte hi)
      | some _, none => .error (.invalidByte lo)
      | some h, some l =>
          match decodeString rest with
          | .error err => .error err
          | .ok bytes => .ok ((h * 16 + l) :: bytes)
  | [c] => if (digit c).isNone then .error (.invalidByte c) else .error .length
  | [] => .ok []

/-- The decoder that works from the front succeeds with the result of the other one. -/
theorem decode_of_decodeString {s : String} {bytes : Bytes}
    (h : decodeString (utf8 s) = .ok bytes) : decode s = .ok bytes := by
  have hpairs : ∀ (cs bs : Bytes) (n : ℕ), decodeString cs = .ok bs →
      decodePairs n cs = .ok bs ∧ cs.length % 2 = 0 := by
    intro cs
    induction cs using decodeString.induct with
    | case4 hi lo rest h l hlo hhi bytes hrest ih =>
        intro bs n hbs
        simp only [decodeString, hhi, hlo, hrest, Except.ok.injEq] at hbs
        subst hbs
        obtain ⟨hdecode, hlen⟩ := ih bytes (n + 2) hrest
        refine ⟨?_, by simp only [List.length_cons]; omega⟩
        simp only [decodePairs, val, hhi, hlo, hdecode]
        rfl
    | case7 => simp [decodeString, decodePairs]
    | _ =>
        intro bs n hbs
        simp_all [decodeString]
  obtain ⟨hdecode, hlen⟩ := hpairs _ _ 0 h
  rw [decode, if_neg (by omega), hdecode]

/-- The lower-case digit of a value below sixteen. -/
def digitChar (v : Nat) : Char := "0123456789abcdef".toList.getD v '0'

/-- Two lower-case digits for every byte. -/
def encode (b : Bytes) : String :=
  String.ofList (b.flatMap fun x => [digitChar (x.toNat / 16), digitChar (x.toNat % 16)])

theorem digit_digitChar : ∀ v < 16, ∃ c, String.utf8EncodeChar (digitChar v) = [c] ∧ c < 0x80 ∧
    digit c = some (UInt8.ofNat v) := by
  intro v hv
  have hall : ∀ v : Fin 16, String.utf8EncodeChar (digitChar v) =
      [(String.utf8EncodeChar (digitChar v)).headD 0] ∧
      (String.utf8EncodeChar (digitChar v)).headD 0 < 0x80 ∧
      digit ((String.utf8EncodeChar (digitChar v)).headD 0) = some (UInt8.ofNat v) := by
    decide
  exact ⟨_, hall ⟨v, hv⟩⟩

/-- The bytes of the text: two ASCII bytes for every byte. -/
theorem utf8_encode (b : Bytes) :
    (utf8 (encode b)).length = 2 * b.length ∧ ∀ x ∈ utf8 (encode b), x < 0x80 := by
  rw [encode, utf8_ofList]
  induction b with
  | nil => simp
  | cons x rest ih =>
      have hx := x.toNat_lt
      obtain ⟨hi, hhi, hhi', -⟩ := digit_digitChar (x.toNat / 16) (by omega)
      obtain ⟨lo, hlo, hlo', -⟩ := digit_digitChar (x.toNat % 16) (by omega)
      obtain ⟨hlen, hrest⟩ := ih
      simp only [List.flatMap_cons, List.cons_append, List.nil_append, hhi, hlo, List.length_cons,
        List.forall_mem_cons]
      exact ⟨by omega, hhi', hlo', hrest⟩

/-- Decoding what was encoded gives the bytes back. -/
theorem decode_encode (b : Bytes) : decode (encode b) = .ok b := by
  have hpairs : ∀ (b : Bytes) (index : Nat),
      decodePairs index ((b.flatMap fun x =>
        [digitChar (x.toNat / 16), digitChar (x.toNat % 16)]).flatMap String.utf8EncodeChar) =
        .ok b := by
    intro b
    induction b with
    | nil => intro index; rfl
    | cons x rest ih =>
        intro index
        have hx := x.toNat_lt
        obtain ⟨hi, hhi, -, hdhi⟩ := digit_digitChar (x.toNat / 16) (by omega)
        obtain ⟨lo, hlo, -, hdlo⟩ := digit_digitChar (x.toNat % 16) (by omega)
        have hbyte : UInt8.ofNat (x.toNat / 16) * 16 + UInt8.ofNat (x.toNat % 16) = x := by
          apply UInt8.toNat_inj.mp
          simp only [UInt8.toNat_add, UInt8.toNat_mul, UInt8.toNat_ofNat', UInt8.reduceToNat]
          omega
        simp only [List.flatMap_cons, hhi, hlo, List.cons_append, List.nil_append]
        simp only [decodePairs, val, hdhi, hdlo, ih, bind, Except.bind, pure, Except.pure, hbyte]
  rw [decode, (utf8_encode b).1, if_neg (by omega), encode, utf8_ofList, hpairs]

theorem encode_injective : Function.Injective encode := by
  intro a b h
  have hdecode := congrArg decode h
  rw [decode_encode, decode_encode] at hdecode
  exact Except.ok.inj hdecode

end PmxAgents.Lib.Hex
