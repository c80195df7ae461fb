import PmxAgents.Lib.Checks
import PmxAgents.Lib.Text
import PmxAgents.SharedRust.Envelope

/-!
# The key set of the Rust agents

A key set file lists one key a line with an optional expiry. The position of a
key in the file and its position among the keys that have not expired are two
numberings; `verifyIdentifying` answers with the first, `activeKeys` drops it.
-/

namespace PmxAgents.SharedRust

open Lib Lib.Cbor

/-- The order of timestamps: by second, then by nanosecond. -/
def DateTime.lt (a b : DateTime) : Bool :=
  decide (a.secs < b.secs ∨ a.secs = b.secs ∧ a.nanos < b.nanos)

/-- The signature crate and the timestamp parser. -/
structure Crypto where
  Key : Type
  Sig : Type
  keyFromBytes : Bytes → Except String Key
  sigFromSlice : Bytes → Except String Sig
  verify : Key → Bytes → Sig → Bool
  /-- `DateTime::parse_from_rfc3339`, converted to UTC. -/
  parseRfc3339 : String → Except String DateTime

/-- One key with an optional expiry. -/
structure KeyEntry (C : Crypto) where
  key : C.Key
  notAfter : Option DateTime

def KeyEntry.isActive {C : Crypto} (e : KeyEntry C) (now : DateTime) : Bool :=
  match e.notAfter with
  | none => true
  | some t => now.lt t

/-- Why a key set is refused; all but the last name the line. -/
inductive KeySetError where
  | fieldCount (line : Nat)
  | hexDecode (line : Nat) (err : Hex.HexError)
  | keyLength (line : Nat)
  | invalidKey (line : Nat) (err : String)
  | invalidNotAfter (line : Nat) (err : String)
  | noKeys
  deriving DecidableEq, Repr

abbrev KeySet (C : Crypto) := List (KeyEntry C)

namespace KeySet

/-- A line without its comment and surrounding white space. -/
def content (line : List Char) : List Char := Text.trim (Text.before '#' line)

/-- The key of a line. -/
def parseKey (C : Crypto) (n : Nat) (field : List Char) : Except KeySetError C.Key :=
  match Hex.decode (String.ofList field) with
  | .error err => .error (.hexDecode n err)
  | .ok bytes =>
      if bytes.length ≠ 32 then .error (.keyLength n)
      else
        match C.keyFromBytes bytes with
        | .error err => .error (.invalidKey n err)
        | .ok key => .ok key

/-- The entry of line `n` that is not empty. -/
def parseLine (C : Crypto) (n : Nat) (line : List Char) : Except KeySetError (KeyEntry C) :=
  match Text.fields line with
  | [field] => do
      let key ← parseKey C n field
      return ⟨key, none⟩
  | [field, notAfter] => do
      let key ← parseKey C n field
      match C.parseRfc3339 (String.ofList notAfter) with
      | .error err => throw (.invalidNotAfter n err)
      | .ok t => return ⟨key, some t⟩
  | _ => .error (.fieldCount n)

/-- The entries of the lines from number `n` on. -/
def parseFrom (C : Crypto) : Nat → List (List Char) → Except KeySetError (KeySet C)
  | _, [] => .ok []
  | n, line :: rest =>
      if content line = [] then parseFrom C (n + 1) rest
      else do
        let entry ← parseLine C n (content line)
        let entries ← parseFrom C (n + 1) rest
        return entry :: entries

def parse (C : Crypto) (text : String) : Except KeySetError (KeySet C) :=
  match parseFrom C 1 (Text.lines text.toList) with
  | .error err => .error err
  | .ok [] => .error .noKeys
  | .ok entries => .ok entries

/-- The index in the file of the active key that verifies a signature. `now i` is
the clock reading for the key at position `i`. -/
def verifyIdentifying {C : Crypto} (keys : KeySet C) (now : Nat → DateTime)
    (message signature : Bytes) : Option Nat :=
  match C.sigFromSlice signature with
  | .error _ => none
  | .ok sig =>
      (keys.zipIdx.find? fun (e, i) => e.isActive (now i) && C.verify e.key message sig).map
        Prod.snd

/-- The active keys without their positions. -/
def activeKeys {C : Crypto} (keys : KeySet C) (now : Nat → DateTime) : List C.Key :=
  (keys.zipIdx.filter fun (e, i) => e.isActive (now i)).map fun (e, _) => e.key

/-- The first line of the file with a key on it, with its number. -/
def firstKeyLine : Nat → List (List Char) → Option (Nat × List Char)
  | _, [] => none
  | n, line :: rest =>
      if content line = [] then firstKeyLine (n + 1) rest else some (n, content line)

/-- The key on the first key line of the file: the release key. -/
def releaseKey (C : Crypto) (text : String) : Option C.Key :=
  match firstKeyLine 1 (Text.lines text.toList) with
  | none => none
  | some (n, line) =>
      match Text.fields line with
      | [] => none
      | field :: _ => (parseKey C n field).toOption

theorem parseLine_key {C : Crypto} {n : Nat} {line : List Char} {entry : KeyEntry C}
    (h : parseLine C n line = .ok entry) :
    ∃ field rest, Text.fields line = field :: rest ∧ parseKey C n field = .ok entry.key := by
  unfold parseLine at h
  split at h
  · rename_i field hfields
    obtain ⟨key, hkey, hentry⟩ := Checks.bind_eq_ok.mp h
    obtain rfl := Except.ok.inj hentry
    exact ⟨field, [], hfields, hkey⟩
  · rename_i field notAfter hfields
    obtain ⟨key, hkey, htime⟩ := Checks.bind_eq_ok.mp h
    split at htime
    · cases htime
    · obtain rfl := Except.ok.inj htime
      exact ⟨field, [notAfter], hfields, hkey⟩
  · cases h

/-- The first entry comes from the first key line. -/
theorem parseFrom_cons {C : Crypto} {n : Nat} {ls : List (List Char)} {entry : KeyEntry C}
    {entries : KeySet C} (h : parseFrom C n ls = .ok (entry :: entries)) :
    ∃ m line, firstKeyLine n ls = some (m, line) ∧ parseLine C m line = .ok entry := by
  induction ls generalizing n with
  | nil => simp [parseFrom] at h
  | cons line rest ih =>
      unfold parseFrom at h
      unfold firstKeyLine
      split at h
      · rename_i hempty
        rw [if_pos hempty]
        exact ih h
      · rename_i hempty
        rw [if_neg hempty]
        obtain ⟨e, hline, htail⟩ := Checks.bind_eq_ok.mp h
        obtain ⟨es, -, hcons⟩ := Checks.bind_eq_ok.mp htail
        obtain ⟨rfl, -⟩ := List.cons.inj (Except.ok.inj hcons)
        exact ⟨n, content line, rfl, hline⟩

/-- A parsed key set is not empty and starts with the release key. -/
theorem parse_ok {C : Crypto} {text : String} {keys : KeySet C} (h : parse C text = .ok keys) :
    ∃ first rest, keys = first :: rest ∧ releaseKey C text = some first.key := by
  unfold parse at h
  split at h
  · cases h
  · cases h
  · rename_i entries hne hparse
    obtain rfl := Except.ok.inj h
    cases hk : entries with
    | nil => exact absurd hk hne
    | cons first rest =>
        rw [hk] at hparse
        obtain ⟨m, line, hfirst, hline⟩ := parseFrom_cons hparse
        obtain ⟨field, rest', hfields, hkey⟩ := parseLine_key hline
        refine ⟨first, rest, rfl, ?_⟩
        unfold releaseKey
        simp only [hfirst, hfields, hkey, Except.toOption]

end KeySet

end PmxAgents.SharedRust
