import PmxAgents.Lib.Cbor
import PmxAgents.Lib.Hex
import PmxAgents.Lib.Rfc3339
import PmxAgents.Lib.Settings

/-!
# The signed job envelope of the Rust agents

The envelope carries its params as JSON values. The canonical bytes are built
from an explicit map: the outer keys are sorted by length and bytes, while params
and nested objects keep the order of their ordered maps, which is by bytes alone.

## Implementation notes

`Libs` holds the crates the agents call: the text of a timestamp and the CBOR
writer.

An `Envelope` carries what decoding guarantees: numbers in the ranges of their
variants, finite floats, objects in key order, and lengths a 64-bit machine can
address.
-/

namespace PmxAgents.SharedRust

open Lib Lib.Cbor Lib.KeySort

/-! ## Timestamps -/

/-- A UTC timestamp. Nanoseconds from a billion on mark a leap second, which
follows the last second of a minute. -/
@[ext] structure DateTime where
  secs : Int
  nanos : Nat
  inRange : -8334601228800 ≤ secs ∧ secs ≤ 8210266876799
  nanos_lt : nanos < 2 * 10 ^ 9
  leap : 10 ^ 9 ≤ nanos → secs % 60 = 59
  deriving DecidableEq

/-- `DateTime::from_timestamp` of a time outside leap seconds. -/
def DateTime.fromTimestamp (secs : Int) (nanos : Nat) : Option DateTime :=
  if h : (-8334601228800 ≤ secs ∧ secs ≤ 8210266876799) ∧ nanos < 10 ^ 9 then
    some ⟨secs, nanos, h.1, by omega, by omega⟩
  else none

theorem DateTime.fromTimestamp_eq_some {secs : Int} {nanos : Nat} {d : DateTime} :
    fromTimestamp secs nanos = some d ↔ d.secs = secs ∧ d.nanos = nanos ∧ nanos < 10 ^ 9 := by
  rw [fromTimestamp]
  split_ifs with h
  · refine ⟨?_, fun hd => congrArg some (DateTime.ext hd.1.symm hd.2.1.symm)⟩
    rintro ⟨⟩
    exact ⟨rfl, rfl, h.2⟩
  · refine iff_of_false nofun ?_
    rintro ⟨rfl, rfl, hlt⟩
    exact h ⟨d.inRange, hlt⟩

/-- The text of a timestamp with as many fraction digits as it needs. -/
def rfc3339AutoSi (d : DateTime) : String :=
  String.ofList (Rfc3339.text Rfc3339.yearSigned d.secs (d.nanos / 10 ^ 9)
    (Rfc3339.fracAutoSi (d.nanos % 10 ^ 9)))

/-! ## JSON values -/

/-- The variants of a number: unsigned, negative, and a binary64 as its bits. -/
inductive Number where
  | posInt (n : UInt64)
  | negInt (i : Int64)
  | float (bits : UInt64)
  deriving DecidableEq, Repr

namespace Number

/-- What the variants hold: a negative integer, and a finite float. -/
def WF : Number → Prop
  | .posInt _ => True
  | .negInt i => i.toInt < 0
  | .float bits => bits.toNat / 2 ^ 52 % 2 ^ 11 ≠ 2047

def asI64 : Number → Option Int
  | .posInt n => if n.toNat < 2 ^ 63 then some n.toNat else none
  | .negInt i => some i.toInt
  | .float _ => none

/-- Divide by a power of two, rounding to the nearest and ties to even. -/
def roundShift (n s : Nat) : Nat :=
  let q := n / 2 ^ s
  let r := n % 2 ^ s
  if 2 ^ s < 2 * r ∨ 2 * r = 2 ^ s ∧ q % 2 = 1 then q + 1 else q

/-- The bits of the binary64 nearest to a number. A mantissa that rounds up to the
next power of two carries into the exponent. -/
def natAsF64 (n : Nat) : Nat :=
  if n = 0 then 0
  else
    let e := Nat.log2 n
    let mantissa := if e ≤ 52 then n * 2 ^ (52 - e) else roundShift n (e - 52)
    (e + 1022) * 2 ^ 52 + mantissa

/-- The number as a binary64; without arbitrary precision there always is one. -/
def asF64 : Number → UInt64
  | .posInt n => UInt64.ofNat (natAsF64 n.toNat)
  | .negInt i => UInt64.ofNat (2 ^ 63 + natAsF64 i.toInt.natAbs)
  | .float bits => bits

/-- The number branch of `json_val_to_cbor`. Since `asF64` always answers, its
text branch is never taken. -/
def toCbor (n : Number) : Value :=
  match n.asI64 with
  | some i => .int i
  | none => .float n.asF64

end Number

/-- A JSON value; an object lists its entries in the order of the map. -/
inductive Json where
  | null
  | bool (b : Bool)
  | number (n : Number)
  | string (s : String)
  | array (xs : List Json)
  | object (kvs : List (String × Json))

/-- The keys of an object in strictly increasing byte order. -/
def KeysSorted {α : Type} (kvs : List (String × α)) : Prop :=
  (kvs.map Prod.fst).Pairwise fun k k' => BytesLt (utf8 k) (utf8 k')

mutual

/-- Numbers keep to their variants and objects to their order. -/
def Json.WF : Json → Prop
  | .null => True
  | .bool _ => True
  | .number n => n.WF
  | .string _ => True
  | .array xs => WFList xs
  | .object kvs => KeysSorted kvs ∧ WFPairs kvs

def WFList : List Json → Prop
  | [] => True
  | x :: xs => x.WF ∧ WFList xs

def WFPairs : List (String × Json) → Prop
  | [] => True
  | (_, v) :: rest => v.WF ∧ WFPairs rest

end

mutual

def jsonValToCbor : Json → Value
  | .null => .null
  | .bool b => .bool b
  | .number n => n.toCbor
  | .string s => .text s
  | .array xs => .array (jsonValsToCbor xs)
  | .object kvs => .map (jsonPairsToCbor kvs)

def jsonValsToCbor : List Json → List Value
  | [] => []
  | x :: xs => jsonValToCbor x :: jsonValsToCbor xs

def jsonPairsToCbor : List (String × Json) → List (Value × Value)
  | [] => []
  | (k, v) :: rest => (.text k, jsonValToCbor v) :: jsonPairsToCbor rest

end

/-! ## The envelope -/

structure Envelope where
  version : String
  jobId : String
  issuedAt : DateTime
  expiresAt : DateTime
  issuer : String
  audience : String
  host : String
  command : String
  params : List (String × Json)
  signature : String
  params_wf : (Json.object params).WF
  params_fit : (jsonValToCbor (.object params)).Fits
  texts_fit : ∀ s ∈ [version, jobId, issuer, audience, host, command],
    (utf8 s).length < 256 ^ 8

/-- What the agents take from other crates to build the canonical bytes. -/
structure Libs where
  /-- `to_rfc3339_opts` with automatic fractions and `Z` for UTC. -/
  toRfc3339 : DateTime → String
  /-- The CBOR writer on a growing buffer. -/
  intoWriter : Value → Except String Bytes

inductive EnvelopeError where
  | versionUnsupported (got : String)
  | expired (expiresAt : DateTime)
  | tooLongLived (secs : Int)
  | audienceMismatch (expected got : String)
  | hostMismatch (expected got : String)
  | badSignature
  | replay (jobId : String)
  | cbor (err : String)
  | hex (err : Hex.HexError)

/-- Conversions that find no narrower float. -/
def plainConversions : FloatConversions :=
  ⟨fun _ => 0, fun _ => 0x7ff8000000000000, fun _ => 0, fun _ => 0x7ff8000000000000⟩

/-- Libraries that do what is documented. -/
def plainLibs : Libs :=
  ⟨rfc3339AutoSi, fun v => .ok (v.encode plainConversions.narrowest)⟩

def epoch : DateTime := ⟨0, 0, by decide, by decide, by decide⟩

namespace Envelope

/-- The entries of the map, in the order the code inserts them. -/
def fields (L : Libs) (e : Envelope) : List (String × Value) :=
  [("audience", .text e.audience),
   ("command", .text e.command),
   ("expiresAt", .text (L.toRfc3339 e.expiresAt)),
   ("host", .text e.host),
   ("issuedAt", .text (L.toRfc3339 e.issuedAt)),
   ("issuer", .text e.issuer),
   ("jobId", .text e.jobId),
   ("params", .map (jsonPairsToCbor e.params)),
   ("version", .text e.version)]

/-- The map to sign. The ordered map yields its entries by bytes; the sort that
follows puts shorter keys first. -/
def canonicalValue (L : Libs) (e : Envelope) : Value :=
  .map ((sortByKey LenLe (sortByKey LexLe (e.fields L))).map fun kv => (.text kv.1, kv.2))

def canonicalBytes (L : Libs) (e : Envelope) : Except EnvelopeError Bytes :=
  match L.intoWriter (e.canonicalValue L) with
  | .ok buf => .ok buf
  | .error err => .error (.cbor err)

end Envelope

end PmxAgents.SharedRust
