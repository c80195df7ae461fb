import PmxAgents.Lib.Scanner
import PmxAgents.Lib.Text
import PmxAgents.Lib.Timestamp
import PmxAgents.Shared.Envelope

/-!
# The key set file of the Go agents

A text of one key a line with an optional expiry and comments is read twice: by
`LoadKeySet` from the file at start, and by `ParseKeySet` from an update. The two read
the lines alike. Only the first one asks the scanner for its error, so that an update
is accepted up to the first line that is too long for the scanner, and the file it
leaves behind is refused at the next start.

## Implementation notes

A text is a list of characters; a line is as long as its UTF-8 bytes. `parseTime` is
`time.Parse` with the RFC 3339 layout: nothing depends on what it accepts.
-/

namespace PmxAgents.Shared

open Lib Lib.Cbor Lib.Scanner

/-- The alphabet of a text. -/
def textChars : Alphabet Char := ⟨'\n', '\r', Char.utf8Size⟩

def publicKeySize : ℕ := 32

/-- Why a text is refused, with what each message reports. -/
inductive KeySetError where
  | fieldCount (line got : ℕ)
  | invalidHex (line : ℕ) (err : Hex.StringError)
  | keySize (line : ℕ)
  | keySizeGot (line got : ℕ)
  | invalidNotAfter (line : ℕ) (text : List Char)
  | invalidNotAfterTimestamp (line : ℕ) (text : List Char)
  | scan (path : String)
  | containsNoKeys (path : String)
  | noKeysFound
  deriving DecidableEq, Repr

/-- The messages in which the two readers differ. -/
structure Messages where
  keySize : ℕ → ℕ → KeySetError
  notAfter : ℕ → List Char → KeySetError

namespace KeySet

/-- A line without its comment and surrounding white space. -/
def content (line : List Char) : List Char := Text.trim (Text.before '#' (Text.trim line))

section Lines
variable (parseTime : List Char → Option Int) (M : Messages)

/-- The key of a line. -/
def parseKey (n : ℕ) (field : List Char) : Except KeySetError Bytes :=
  match Hex.decodeString (utf8 (String.ofList field)) with
  | .error err => .error (.invalidHex n err)
  | .ok bytes =>
      if bytes.length ≠ publicKeySize then .error (M.keySize n bytes.length) else .ok bytes

/-- The entry of line `n` that is not empty. -/
def parseLine (n : ℕ) (line : List Char) : Except KeySetError KeyEntry :=
  match Text.fields line with
  | [field] =>
      match parseKey M n field with
      | .error err => .error err
      | .ok pub => .ok ⟨pub, zeroTime⟩
  | [field, notAfter] =>
      match parseKey M n field with
      | .error err => .error err
      | .ok pub =>
          match parseTime notAfter with
          | none => .error (M.notAfter n notAfter)
          | some t => .ok ⟨pub, t⟩
  | parts => .error (.fieldCount n parts.length)

/-- The entries of the lines after the first `n`. -/
def parseLines : ℕ → List (List Char) → Except KeySetError KeySet
  | _, [] => .ok []
  | n, line :: rest =>
      if content line = [] then parseLines (n + 1) rest
      else
        match parseLine parseTime M (n + 1) (content line) with
        | .error err => .error err
        | .ok entry =>
            match parseLines (n + 1) rest with
            | .error err => .error err
            | .ok entries => .ok (entry :: entries)

end Lines

section Readers
variable (parseTime : List Char → Option Int)

def loadMessages : Messages := ⟨.keySizeGot, .invalidNotAfterTimestamp⟩

/-- Read the text of a file. -/
def loadKeySet (path : String) (text : List Char) : Except KeySetError KeySet :=
  let s := scan textChars text
  match parseLines parseTime loadMessages 0 s.tokens with
  | .error err => .error err
  | .ok entries =>
      if s.tooLong then .error (.scan path)
      else if entries = [] then .error (.containsNoKeys path)
      else .ok entries

def parseMessages : Messages := ⟨fun line _ => .keySize line, .invalidNotAfter⟩

/-- Read the text of an update. -/
def parseKeySet (text : List Char) : Except KeySetError KeySet :=
  match parseLines parseTime parseMessages 0 (scan textChars text).tokens with
  | .error err => .error err
  | .ok entries => if entries = [] then .error .noKeysFound else .ok entries

end Readers

/-- Replace the keys by the active ones of a new set. `now i` is the clock reading for the key
at position `i`. -/
def update (newSet : KeySet) (now : ℕ → Int) : Option KeySet :=
  let active := (newSet.zipIdx.filter fun (e, i) => e.isActive (now i)).map Prod.fst
  if active = [] then none else some active

/-- Some key of a new set is active when its turn comes. -/
def SomeActive (newSet : KeySet) (now : ℕ → Int) : Prop :=
  ∃ (k : KeyEntry) (i : ℕ), newSet[i]? = some k ∧ k.isActive (now i)

/-- An update keeps the keys that are active when their turn comes, if there are any. -/
theorem update_cases (newSet : KeySet) (now : ℕ → Int) :
    (update newSet now = none ∧ ¬ SomeActive newSet now) ∨
      ∃ active, update newSet now = some active ∧ SomeActive newSet now ∧
        ∀ k : KeyEntry, k ∈ active ↔ ∃ i, newSet[i]? = some k ∧ k.isActive (now i) := by
  have hmem : ∀ k : KeyEntry,
      k ∈ (newSet.zipIdx.filter fun (e, i) => e.isActive (now i)).map Prod.fst ↔
        ∃ i, newSet[i]? = some k ∧ k.isActive (now i) := by
    intro k
    simp only [List.mem_map, List.mem_filter, Prod.exists, exists_and_right, exists_eq_right,
      List.mk_mem_zipIdx_iff_getElem?]
  simp only [update]
  split_ifs with hempty
  · refine .inl ⟨rfl, fun ⟨k, i, hk⟩ => ?_⟩
    have hk' := (hmem k).mpr ⟨i, hk⟩
    rw [hempty] at hk'
    cases hk'
  · obtain ⟨k, hk⟩ := List.exists_mem_of_ne_nil _ hempty
    exact .inr ⟨_, rfl, ⟨k, (hmem k).mp hk⟩, hmem⟩

/-! ## The two readers -/

section Agreement
variable {parseTime : List Char → Option Int} {M M' : Messages}

theorem parseKey_ok {n : ℕ} {field : List Char} {pub : Bytes} :
    parseKey M n field = .ok pub ↔
      Hex.decodeString (utf8 (String.ofList field)) = .ok pub ∧ pub.length = publicKeySize := by
  rw [parseKey]
  cases Hex.decodeString (utf8 (String.ofList field)) with
  | error err => simp
  | ok bytes =>
      simp only [Except.ok.injEq]
      split_ifs with hlen
      · exact iff_of_false nofun fun h => hlen (h.1 ▸ h.2)
      · exact ⟨fun h => ⟨Except.ok.inj h, Except.ok.inj h ▸ not_not.mp hlen⟩,
          fun h => congrArg _ h.1⟩

/-- A line is accepted whatever the messages are. -/
theorem parseLine_ok_congr {n : ℕ} {line : List Char} {e : KeyEntry}
    (h : parseLine parseTime M n line = .ok e) : parseLine parseTime M' n line = .ok e := by
  rw [parseLine] at h ⊢
  split at h
  · split at h
    · cases h
    · rename_i hkey
      rw [parseKey_ok.mpr (parseKey_ok.mp hkey)]
      exact h
  · split at h
    · cases h
    · rename_i hkey
      rw [parseKey_ok.mpr (parseKey_ok.mp hkey)]
      split at h
      · cases h
      · exact h
  · cases h

theorem parseLines_ok_congr {n : ℕ} {lines : List (List Char)} {es : KeySet}
    (h : parseLines parseTime M n lines = .ok es) : parseLines parseTime M' n lines = .ok es := by
  induction lines generalizing n es with
  | nil => exact h
  | cons line lines ih =>
      rw [parseLines] at h ⊢
      split_ifs at h ⊢
      · exact ih h
      · split at h
        · cases h
        · rename_i hline
          split at h
          · cases h
          · rename_i hlines
            rw [parseLine_ok_congr hline, ih hlines]
            exact h

/-- An accepted update is read alike from the file unless a line is too long. -/
theorem loadKeySet_of_parseKeySet {text : List Char} {keys : KeySet} (path : String)
    (h : parseKeySet parseTime text = .ok keys) :
    loadKeySet parseTime path text =
      if (scan textChars text).tooLong then .error (.scan path) else .ok keys := by
  rw [parseKeySet] at h
  split at h
  · cases h
  · rename_i entries hlines
    split_ifs at h with hempty
    obtain rfl := Except.ok.inj h
    simp only [loadKeySet, parseLines_ok_congr hlines, if_neg hempty]

end Agreement

/-- An accepted update is loaded as the same keys at the next start exactly when every line of
it fits into the scanner. -/
theorem loadKeySet_eq_iff_fits (parseTime : List Char → Option Int) (path : String)
    {text : List Char} {keys : KeySet} (h : parseKeySet parseTime text = .ok keys) :
    loadKeySet parseTime path text = .ok keys ↔
      ∀ line ∈ text.splitOn '\n', Fits textChars line := by
  rw [loadKeySet_of_parseKeySet path h]
  refine Iff.trans ?_ (scan_tooLong_eq_false textChars text)
  split_ifs with hlong
  · exact iff_of_false nofun (by simp [hlong])
  · exact iff_of_true rfl (by simpa using hlong)

/-- A parser of timestamps that takes what the layout says and no more. -/
def parseStrict (text : List Char) : Option Int :=
  (Timestamp.read text).map fun s => (s.secs - s.offset * 60) * second + s.nanos

/-- The line of the key of zero bytes. -/
def zeroKeyLine : List Char := List.replicate 64 '0'

theorem loadKeySet_zeroKeyLine :
    parseKeySet parseStrict zeroKeyLine = .ok [⟨List.replicate 32 0, zeroTime⟩] ∧
      loadKeySet parseStrict "keyset.pub" zeroKeyLine = .ok [⟨List.replicate 32 0, zeroTime⟩] := by
  have hparse : parseKeySet parseStrict zeroKeyLine = .ok [⟨List.replicate 32 0, zeroTime⟩] := by
    decide
  exact ⟨hparse, (loadKeySet_eq_iff_fits parseStrict "keyset.pub" hparse).mpr (by decide)⟩

/-- A key followed by a comment of 64 KiB: the update is accepted, the file is refused. -/
theorem long_comment_refused :
    let text := zeroKeyLine ++ '\n' :: List.replicate 65536 '#'
    parseKeySet parseStrict text = .ok [⟨List.replicate 32 0, zeroTime⟩] ∧
      loadKeySet parseStrict "keyset.pub" text = .error (.scan "keyset.pub") := by
  intro text
  have hsize : ¬ Fits textChars (List.replicate 65536 '#') := by
    rw [Fits, bytes_replicate]
    decide
  have hnewline : '\n' ∉ List.replicate 65536 '#' := fun hm =>
    absurd (List.eq_of_mem_replicate hm) (by decide)
  have hlong := scan_tooLong textChars hnewline hsize (Or.inl rfl)
  rw [List.append_nil] at hlong
  have hscan : scan textChars text = ⟨[zeroKeyLine], true⟩ := by
    refine (scan_line textChars (by decide) (by decide) _).trans ?_
    rw [hlong]
    rfl
  have hparse : parseKeySet parseStrict text = .ok [⟨List.replicate 32 0, zeroTime⟩] := by
    rw [parseKeySet, hscan]
    decide
  refine ⟨hparse, ?_⟩
  rw [loadKeySet_of_parseKeySet _ hparse, hscan, if_pos rfl]

end KeySet

end PmxAgents.Shared
