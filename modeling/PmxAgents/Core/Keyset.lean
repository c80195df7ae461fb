import PmxAgents.Shared.KeySet

/-!
# Rotating the keys

`core.keyset.update` carries a new key set. The text is parsed, written over the key
set file, and only then are the keys of the running agent replaced by the active ones
among the new. A text whose keys have all expired passes the parser and is written
before the replacement refuses it: the command fails and leaves the file changed.

## Implementation notes

Every file-system call succeeds: the temporary file, its sync and the rename leave the
new text in the place of the old one. The clock is read once for every key.
-/

namespace PmxAgents.Core.Keyset

open Lib Lib.Scanner Shared

/-- A JSON answer with an error in it; the message of the last one is that of the parser. -/
inductive Refusal where
  | errorJSON (code message : String)
  | invalidKeyset (err : KeySetError)
  deriving DecidableEq, Repr

/-- What the command answers; `reload` is the error of the replacement. -/
inductive Reply where
  | ok (keyCount : ℕ)
  | refused (refusal : Refusal)
  | reload
  deriving DecidableEq, Repr

/-- The file, if there is one, and the keys of the running agent. -/
structure State where
  file : Option (List Char)
  entries : KeySet
  deriving DecidableEq, Repr

/-- The strings of an array, from position `i` on. -/
def stringsFrom : ℕ → List Any → Except Refusal (List String)
  | _, [] => .ok []
  | i, .string s :: rest =>
      match stringsFrom (i + 1) rest with
      | .error refusal => .error refusal
      | .ok lines => .ok (s :: lines)
  | i, _ :: _ => .error (.errorJSON "BAD_PARAM" s!"params.keys[{i}] is not a string")

/-- The text of the params. -/
def contentOf (params : List (String × Any)) : Except Refusal (List Char) :=
  match params.lookup "keys" with
  | none => .error (.errorJSON "MISSING_PARAM" "params.keys is required")
  | some (.slice items) =>
      match stringsFrom 0 items with
      | .error refusal => .error refusal
      | .ok lines => .ok (['\n'].intercalate (lines.map String.toList))
  | some (.string s) => .ok (['\n'].intercalate (s.toList.splitOn '\n'))
  | some _ => .error (.errorJSON "BAD_PARAM" "params.keys must be a string or array of strings")

section Handle
variable (parseTime : List Char → Option Int)

/-- The text of a request and the keys it is parsed as. -/
def parse (env : Envelope) : Except Refusal (List Char × KeySet) :=
  match contentOf (env.params.getD []) with
  | .error refusal => .error refusal
  | .ok content =>
      match KeySet.parseKeySet parseTime content with
      | .error err => .error (.invalidKeyset err)
      | .ok newKS =>
          if newKS.length = 0 then
            .error (.errorJSON "EMPTY_KEYSET" "update would leave 0 active keys — rejected")
          else .ok (content, newKS)

/-- The command. `now i` is the clock reading for the new key at position `i`. -/
def handle (s : State) (env : Envelope) (now : ℕ → Int) : Reply × State :=
  match parse parseTime env with
  | .error refusal => (.refused refusal, s)
  | .ok (content, newKS) =>
      let written := { s with file := some content }
      match KeySet.update newKS now with
      | none => (.reload, written)
      | some active => (.ok newKS.length, { written with entries := active })

/-! ## All or nothing -/

/-- The keys of a set that are active at an instant. -/
def ActiveAt (t : Int) (keys : KeySet) (k : KeyEntry) : Prop := k ∈ keys ∧ k.isActive t

/-- The file is loaded as a key set with the same keys active as in the running agent. -/
def InAgreement (path : String) (t : Int) (s : State) : Prop :=
  ∃ text keys, s.file = some text ∧ KeySet.loadKeySet parseTime path text = .ok keys ∧
    ∀ k, ActiveAt t keys k ↔ ActiveAt t s.entries k

/-- A command that does not answer ok changes nothing; after one that does, the file and the
agent agree at every later instant. -/
structure AllOrNothing (path : String) (s : State) (env : Envelope) (now : ℕ → Int) : Prop where
  failed : (∀ n, (handle parseTime s env now).1 ≠ .ok n) → (handle parseTime s env now).2 = s
  succeeded : ∀ n, (handle parseTime s env now).1 = .ok n → ∀ t, (∀ i < n, now i ≤ t) →
    InAgreement parseTime path t (handle parseTime s env now).2

variable {parseTime}
variable {path : String} {s : State} {env : Envelope} {now : ℕ → Int}

theorem handle_parsed {content : List Char} {newKS : KeySet}
    (h : parse parseTime env = .ok (content, newKS)) :
    handle parseTime s env now =
      match KeySet.update newKS now with
      | none => (.reload, ⟨some content, s.entries⟩)
      | some active => (.ok newKS.length, ⟨some content, active⟩) := by
  rw [handle, h]

theorem parse_ok {content : List Char} {newKS : KeySet}
    (h : parse parseTime env = .ok (content, newKS)) :
    KeySet.parseKeySet parseTime content = .ok newKS := by
  rw [parse] at h
  split at h
  · cases h
  · split at h
    · cases h
    · rename_i hparse
      split_ifs at h
      obtain ⟨rfl, rfl⟩ := Prod.mk.inj (Except.ok.inj h)
      exact hparse

/-- A key that is active now was active when its turn came. -/
theorem isActive_of_le {k : KeyEntry} {t u : Int} (htu : t ≤ u) (h : k.isActive u) :
    k.isActive t := by
  rw [KeyEntry.isActive] at h ⊢
  split_ifs at h ⊢
  · rfl
  · exact decide_eq_true (lt_of_le_of_lt htu (of_decide_eq_true h))

/-- The keys an update keeps are those that are still active later. -/
theorem activeAt_iff {newKS active : KeySet} {t : Int}
    (hactive : ∀ k : KeyEntry, k ∈ active ↔ ∃ i, newKS[i]? = some k ∧ k.isActive (now i))
    (ht : ∀ i < newKS.length, now i ≤ t) (k : KeyEntry) :
    ActiveAt t newKS k ↔ ActiveAt t active k := by
  constructor
  · rintro ⟨hk, ht'⟩
    obtain ⟨i, hi⟩ := List.mem_iff_getElem?.mp hk
    have hlt : i < newKS.length := (List.getElem?_eq_some_iff.mp hi).1
    exact ⟨(hactive k).mpr ⟨i, hi, isActive_of_le (ht i hlt) ht'⟩, ht'⟩
  · rintro ⟨hk, ht'⟩
    obtain ⟨i, hi, -⟩ := (hactive k).mp hk
    exact ⟨List.mem_of_getElem? hi, ht'⟩

/-- After an answer of ok the file and the agent agree when the file can be loaded. -/
theorem inAgreement_iff {content : List Char} {newKS active : KeySet} {t : Int}
    (hparse : KeySet.parseKeySet parseTime content = .ok newKS)
    (hactive : ∀ k : KeyEntry, k ∈ active ↔ ∃ i, newKS[i]? = some k ∧ k.isActive (now i))
    (ht : ∀ i < newKS.length, now i ≤ t) :
    InAgreement parseTime path t ⟨some content, active⟩ ↔
      ∀ line ∈ content.splitOn '\n', Fits textChars line := by
  have hload := KeySet.loadKeySet_of_parseKeySet path hparse
  refine Iff.trans ?_ (scan_tooLong_eq_false textChars content)
  constructor
  · rintro ⟨text, keys, htext, hkeys, -⟩
    obtain rfl := Option.some.inj htext
    rw [hkeys] at hload
    split_ifs at hload with hlong
    simpa using hlong
  · intro hlong
    rw [hlong, if_neg (by decide)] at hload
    exact ⟨content, newKS, rfl, hload, activeAt_iff hactive ht⟩

theorem exists_later (now : ℕ → Int) (n : ℕ) : ∃ t, ∀ i < n, now i ≤ t := by
  induction n with
  | zero => exact ⟨0, fun i hi => absurd hi (Nat.not_lt_zero i)⟩
  | succ n ih =>
      obtain ⟨t, ht⟩ := ih
      refine ⟨max t (now n), fun i hi => ?_⟩
      obtain hlt | rfl := Nat.lt_succ_iff_lt_or_eq.mp hi
      · exact (ht i hlt).trans (le_max_left _ _)
      · exact le_max_right _ _

/-- Where no new key is active the command fails, having written the text. -/
theorem allOrNothing_reload {content : List Char}
    (h : handle parseTime s env now = (.reload, ⟨some content, s.entries⟩)) :
    AllOrNothing parseTime path s env now ↔ s.file = some content := by
  constructor
  · intro hall
    have hs := hall.failed (by rw [h]; exact nofun)
    rw [h] at hs
    exact (congrArg State.file hs).symm
  · intro hfile
    refine ⟨fun _ => ?_, fun n hn => ?_⟩
    · rw [h, ← hfile]
    · rw [h] at hn
      cases hn

/-- Where some are, it succeeds, and the text has to be one that can be loaded. -/
theorem allOrNothing_ok {content : List Char} {newKS active : KeySet}
    (hparse : KeySet.parseKeySet parseTime content = .ok newKS)
    (hactive : ∀ k : KeyEntry, k ∈ active ↔ ∃ i, newKS[i]? = some k ∧ k.isActive (now i))
    (h : handle parseTime s env now = (.ok newKS.length, ⟨some content, active⟩)) :
    AllOrNothing parseTime path s env now ↔
      ∀ line ∈ content.splitOn '\n', Fits textChars line := by
  constructor
  · intro hall
    obtain ⟨t, ht⟩ := exists_later now newKS.length
    have hagree := hall.succeeded newKS.length (by rw [h]) t ht
    rw [h] at hagree
    exact (inAgreement_iff hparse hactive ht).mp hagree
  · intro hfits
    refine ⟨fun hne => absurd (by rw [h]) (hne newKS.length), fun n hn t ht => ?_⟩
    rw [h] at hn ⊢
    obtain rfl : newKS.length = n := Reply.ok.inj hn
    exact (inAgreement_iff hparse hactive ht).mpr hfits

/-- A request whose text was parsed. -/
theorem allOrNothing_parsed {content : List Char} {newKS : KeySet}
    (h : parse parseTime env = .ok (content, newKS)) :
    AllOrNothing parseTime path s env now ↔
      (KeySet.SomeActive newKS now → ∀ line ∈ content.splitOn '\n', Fits textChars line) ∧
      (¬ KeySet.SomeActive newKS now → s.file = some content) := by
  have hhandle : handle parseTime s env now = _ := handle_parsed h
  obtain ⟨hnone, hsome⟩ | ⟨active, hupdate, hsome, hactive⟩ := KeySet.update_cases newKS now
  · rw [hnone] at hhandle
    rw [allOrNothing_reload hhandle]
    exact ⟨fun hfile => ⟨fun h => absurd h hsome, fun _ => hfile⟩, fun h => h.2 hsome⟩
  · rw [hupdate] at hhandle
    rw [allOrNothing_ok (parse_ok h) hactive hhandle]
    exact ⟨fun hfits => ⟨fun _ => hfits, fun h => absurd hsome h⟩, fun h => h.1 hsome⟩

end Handle

/-- Updating the keys is all or nothing exactly when the request is refused by the parser, or
some new key is active and every line of the text can be loaded again, or no new key is
active and the file already holds the text. -/
theorem allOrNothing_iff (parseTime : List Char → Option Int) (path : String) (s : State)
    (env : Envelope) (now : ℕ → Int) :
    AllOrNothing parseTime path s env now ↔
      ∀ content newKS, parse parseTime env = .ok (content, newKS) →
        (KeySet.SomeActive newKS now → ∀ line ∈ content.splitOn '\n', Fits textChars line) ∧
        (¬ KeySet.SomeActive newKS now → s.file = some content) := by
  cases hparse : parse parseTime env with
  | error refusal =>
      have hhandle : handle parseTime s env now = (.refused refusal, s) := by rw [handle, hparse]
      refine iff_of_true ⟨fun _ => by rw [hhandle], fun n hn => ?_⟩ nofun
      rw [hhandle] at hn
      cases hn
  | ok r =>
      rw [allOrNothing_parsed hparse]
      refine ⟨fun h content newKS heq => ?_, fun h => h _ _ rfl⟩
      obtain rfl := Except.ok.inj heq
      exact h

/-- A request whose only key expired a second after the epoch, at a later clock reading: the
answer is an error, and the file is replaced. -/
theorem expired_keys_written :
    let keys := String.ofList (KeySet.zeroKeyLine ++ ' ' :: "1970-01-01T00:00:01Z".toList)
    let env : Envelope := ⟨supportedVersion, "job-1", 0, 0, "backend", "core", "host",
      "core.keyset.update", some [("keys", .string keys)], ""⟩
    let s : State := ⟨some KeySet.zeroKeyLine, [⟨List.replicate 32 0, zeroTime⟩]⟩
    handle KeySet.parseStrict s env (fun _ => 2 * second) =
      (.reload, ⟨some keys.toList, s.entries⟩) ∧ s.file ≠ some keys.toList := by
  decide +kernel

end PmxAgents.Core.Keyset
