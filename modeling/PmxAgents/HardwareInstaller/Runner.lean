import PmxAgents.Lib.JsonLines
import PmxAgents.Lib.ScanLines
import PmxAgents.Lib.Text

/-!
# Commands with bounded output

`runner.Run` starts a command, reads its standard output and its standard error line by line and
keeps as much of each as a capped buffer holds. A flag says whether something was cut off. The
readers have buffers of a mebibyte: a line that does not fit ends the reading, without an error and
without the flag, and what follows stays in the pipe.

`communityscript.Run` has the same loops and the same buffers.

## Implementation notes

A stream is what the reads bring, piece by piece. Both loops write to a third buffer; whose turn it
is at each write is a parameter. Texts are bytes: a cut may be inside the encoding of a character.
-/

namespace PmxAgents.HardwareInstaller.Runner

open Lib Lib.Cbor Lib.JsonLines

/-! ## White space -/

/-- The encodings of the characters that are white space. -/
def spaceCodes : List Bytes :=
  [[0x09], [0x0a], [0x0b], [0x0c], [0x0d], [0x20], [0xc2, 0x85], [0xc2, 0xa0], [0xe1, 0x9a, 0x80],
    [0xe2, 0x80, 0x80], [0xe2, 0x80, 0x81], [0xe2, 0x80, 0x82], [0xe2, 0x80, 0x83],
    [0xe2, 0x80, 0x84], [0xe2, 0x80, 0x85], [0xe2, 0x80, 0x86], [0xe2, 0x80, 0x87],
    [0xe2, 0x80, 0x88], [0xe2, 0x80, 0x89], [0xe2, 0x80, 0x8a], [0xe2, 0x80, 0xa8],
    [0xe2, 0x80, 0xa9], [0xe2, 0x80, 0xaf], [0xe2, 0x81, 0x9f], [0xe3, 0x80, 0x80]]

/-- Drop codes from the start, as many as there are. -/
def dropCodes (codes : List Bytes) : ℕ → Bytes → Bytes
  | 0, s => s
  | fuel + 1, s =>
      match codes.find? (·.isPrefixOf s) with
      | none => s
      | some code => dropCodes codes fuel (s.drop code.length)

/-- Remove white space at both ends. -/
def trimSpace (s : Bytes) : Bytes :=
  let left := dropCodes spaceCodes s.length s
  (dropCodes (spaceCodes.map List.reverse) left.length left.reverse).reverse

theorem length_dropCodes_le (codes : List Bytes) (fuel : ℕ) (s : Bytes) :
    (dropCodes codes fuel s).length ≤ s.length := by
  induction fuel generalizing s with
  | zero => exact le_rfl
  | succ fuel ih =>
      rw [dropCodes]
      cases codes.find? (·.isPrefixOf s) with
      | none => exact le_rfl
      | some code =>
          have hdrop : (s.drop code.length).length ≤ s.length := by simp
          exact (ih _).trans hdrop

theorem length_trimSpace_le (s : Bytes) : (trimSpace s).length ≤ s.length := by
  rw [trimSpace, List.length_reverse]
  refine (length_dropCodes_le _ _ _).trans ?_
  rw [List.length_reverse]
  exact length_dropCodes_le _ _ _

/-! ## Capped buffers -/

structure CappedBuffer where
  limit : ℤ
  size : ℤ
  builder : Bytes
  truncated : Bool

def newCappedBuffer (limit : ℤ) : CappedBuffer := ⟨limit, 0, [], false⟩

def CappedBuffer.writeString (b : CappedBuffer) (value : Bytes) : CappedBuffer :=
  if b.truncated ∨ value = [] then b
  else
    let remaining := b.limit - b.size
    if remaining ≤ 0 then { b with truncated := true }
    else if remaining < value.length then
      { b with
        builder := b.builder ++ value.take remaining.toNat
        size := b.size + remaining
        truncated := true }
    else { b with builder := b.builder ++ value, size := b.size + value.length }

/-- What a buffer holds after a text was written to it. -/
structure CappedBuffer.Holds (b : CappedBuffer) (cap : ℤ) (text : Bytes) : Prop where
  limit : b.limit = cap
  builder : b.builder = text.take cap.toNat
  size : b.size = b.builder.length
  truncated : b.truncated = true ↔ cap < text.length

section Buffer
variable {b : CappedBuffer} {cap : ℤ} {text : Bytes}

theorem holds_newCappedBuffer (hcap : 0 ≤ cap) : (newCappedBuffer cap).Holds cap [] :=
  ⟨rfl, by simp [newCappedBuffer], rfl, by simpa [newCappedBuffer] using hcap⟩

/-- One more write. -/
theorem CappedBuffer.Holds.writeString (h : b.Holds cap text) (hcap : 0 ≤ cap) (value : Bytes) :
    (b.writeString value).Holds cap (text ++ value) := by
  have hlength : (text ++ value).length = text.length + value.length := List.length_append
  rw [CappedBuffer.writeString]
  by_cases hvalue : value = []
  · rw [if_pos (.inr hvalue), hvalue, List.append_nil]
    exact h
  have hpos : 0 < value.length := List.length_pos_of_ne_nil hvalue
  by_cases htruncated : b.truncated = true
  · -- what is over the limit stays out
    have hlong := h.truncated.mp htruncated
    rw [if_pos (.inl htruncated)]
    refine ⟨h.limit, ?_, h.size, iff_of_true htruncated (by omega)⟩
    rw [h.builder, List.take_append_of_le_length (by omega)]
  · have hshort : (text.length : ℤ) ≤ cap := not_lt.mp (mt h.truncated.mpr htruncated)
    have hbuilder : b.builder = text := by
      rw [h.builder, List.take_of_length_le (by omega)]
    have hsize : b.size = text.length := by
      rw [h.size, hbuilder]
    have htake : (text ++ value).take cap.toNat =
        text ++ value.take (cap.toNat - text.length) := by
      rw [List.take_append, List.take_of_length_le (by omega)]
    rw [if_neg (not_or.mpr ⟨htruncated, hvalue⟩), h.limit, hsize]
    by_cases hfull : cap - text.length ≤ 0
    · rw [if_pos hfull]
      have hnone : cap.toNat - text.length = 0 := by omega
      refine ⟨rfl, ?_, ?_, iff_of_true rfl (by omega)⟩
      · rw [htake, hnone, List.take_zero, List.append_nil]
        exact hbuilder
      · rw [hbuilder]
    rw [if_neg hfull]
    by_cases hcut : cap - text.length < value.length
    · rw [if_pos hcut]
      have hremaining : (cap - text.length).toNat = cap.toNat - text.length := by omega
      refine ⟨rfl, ?_, ?_, iff_of_true rfl (by omega)⟩
      · rw [htake, hbuilder, hremaining]
      · dsimp only
        rw [hbuilder, List.length_append, List.length_take, hremaining]
        omega
    · rw [if_neg hcut]
      refine ⟨rfl, ?_, ?_, ?_⟩
      · rw [htake, List.take_of_length_le (by omega), hbuilder]
      · dsimp only
        rw [hbuilder, List.length_append]
        omega
      · exact iff_of_false htruncated (by omega)

/-- All writes, one after the other. -/
theorem CappedBuffer.Holds.foldl (h : b.Holds cap text) (hcap : 0 ≤ cap) (values : List Bytes) :
    (values.foldl CappedBuffer.writeString b).Holds cap (text ++ values.flatten) := by
  induction values generalizing b text with
  | nil =>
      rw [List.flatten_nil, List.append_nil]
      exact h
  | cons value rest ih =>
      rw [List.foldl_cons, List.flatten_cons, ← List.append_assoc]
      exact ih (h.writeString hcap value)

end Buffer

/-! ## A run -/

/-- The size of the buffer that a line has to fit into. -/
def maxLine : ℕ := 1024 * 1024

/-- How `Wait` ends. -/
inductive Waited where
  | ok
  | deadline
  | exited (code : ℤ)
  | syscallFailed (errno : ℤ)
  | failed
  deriving DecidableEq, Repr

/-- A started command: its streams as the reads bring them, the turns of the two loops, and how it
ends. -/
structure Child where
  stdout : List Bytes
  stderr : List Bytes
  turns : List Bool
  waited : Waited

structure Command where
  path : String
  args : List String
  outputLimit : ℤ

structure Result where
  exitCode : ℤ
  stdout : Bytes
  stderr : Bytes
  combined : Bytes
  truncated : Bool
  deriving DecidableEq

inductive RunError where
  | pathRequired
  | start (path : String)
  | timedOut
  | failed (path : String) (args : List String)
  deriving DecidableEq, Repr

/-- What a loop reads. -/
def copyStream (pieces : List Bytes) : ScanLines.Reading UInt8 :=
  ScanLines.readAll fileBytes maxLine pieces

/-- What a loop writes. -/
def writes (pieces : List Bytes) : List Bytes :=
  ((copyStream pieces).tokens fileBytes).flatMap fun line => [line, [0x0a]]

/-- The writes of both loops, by turns. -/
def interleave : List Bool → List Bytes → List Bytes → List Bytes
  | [], xs, ys => xs ++ ys
  | true :: turns, x :: xs, ys => x :: interleave turns xs ys
  | true :: turns, [], ys => interleave turns [] ys
  | false :: turns, xs, y :: ys => y :: interleave turns xs ys
  | false :: turns, xs, [] => interleave turns xs []

def capture (limit : ℤ) (values : List Bytes) : CappedBuffer :=
  values.foldl CappedBuffer.writeString (newCappedBuffer limit)

def limitOf (cmd : Command) : ℤ :=
  if cmd.outputLimit ≤ 0 then 4 * 1024 * 1024 else cmd.outputLimit

def exitCodeOf : Waited → ℤ
  | .ok => 0
  | .deadline => -1
  | .exited code => code
  | .syscallFailed errno => errno
  | .failed => 1

def errorOf (cmd : Command) : Waited → Option RunError
  | .ok => none
  | .deadline => some .timedOut
  | _ => some (.failed cmd.path cmd.args)

/-- A run: an error, or a result that may come with one. -/
def run (cmd : Command) (child : Option Child) : Except RunError (Result × Option RunError) :=
  if Text.trimSpace cmd.path = "" then .error .pathRequired
  else
    match child with
    | none => .error (.start cmd.path)
    | some child =>
        let stdoutBuf := capture (limitOf cmd) (writes child.stdout)
        let stderrBuf := capture (limitOf cmd) (writes child.stderr)
        let combined := capture (limitOf cmd)
          (interleave child.turns (writes child.stdout) (writes child.stderr))
        .ok ({ exitCode := exitCodeOf child.waited
               stdout := trimSpace stdoutBuf.builder
               stderr := trimSpace stderrBuf.builder
               combined := trimSpace combined.builder
               truncated := stdoutBuf.truncated || stderrBuf.truncated || combined.truncated },
          errorOf cmd child.waited)

/-! ## What is kept of a stream -/

/-- A stream with its line ends made equal. -/
def normalised (pieces : List Bytes) : Bytes :=
  ScanLines.unlines fileBytes (ScanLines.lines fileBytes pieces.flatten)

/-- The stream was read to its end, and what is kept of it is all of it or, with the flag, a part
from its start that is within the limit. -/
structure Kept (limit : ℤ) (pieces : List Bytes) (kept : Bytes) (truncated : Bool) : Prop where
  drained : (copyStream pieces).full = false
  complete : truncated = false → kept = trimSpace (normalised pieces)
  cut : truncated = true → (kept.length : ℤ) ≤ limit ∧
    ∃ part, part <+: normalised pieces ∧ (part.length : ℤ) ≤ limit ∧ kept = trimSpace part

/-- Every line fits into the buffer of the reader. -/
def LinesFit (pieces : List Bytes) : Prop :=
  ∀ part ∈ pieces.flatten.splitOn 0x0a, part.length < 1024 * 1024

section Streams
variable {pieces : List Bytes} {limit : ℤ}

theorem length_eq_bytes (s : Bytes) : Scanner.bytes fileBytes s = s.length := by
  simp [Scanner.bytes, fileBytes]

theorem full_copyStream_eq_false_iff : (copyStream pieces).full = false ↔ LinesFit pieces := by
  rw [copyStream, ScanLines.full_readAll_eq_false_iff (by decide)]
  simp only [length_eq_bytes]
  exact Iff.rfl

theorem flatten_writes (h : (copyStream pieces).full = false) :
    (writes pieces).flatten = normalised pieces := by
  have htokens : (copyStream pieces).tokens fileBytes =
      ScanLines.lines fileBytes pieces.flatten := ScanLines.tokens_readAll h
  rw [writes, htokens, normalised, ScanLines.unlines]
  generalize ScanLines.lines fileBytes pieces.flatten = ls
  induction ls with
  | nil => rfl
  | cons line rest ih =>
      rw [List.flatMap_cons, List.flatten_append, ih, List.flatMap_cons]
      simp [fileBytes]

/-- What was written is complete in a buffer that is not truncated, and a part from the start in
any. -/
theorem holds_capture (hlimit : 0 ≤ limit) (values : List Bytes) :
    (capture limit values).Holds limit values.flatten := by
  have h := (holds_newCappedBuffer hlimit).foldl hlimit values
  rwa [List.nil_append] at h

/-- A stream that was read to its end is kept, if the flag is set whenever its buffer was
truncated. -/
theorem kept_of_drained (hlimit : 0 ≤ limit) (hdrained : (copyStream pieces).full = false)
    {truncated : Bool}
    (hflag : (capture limit (writes pieces)).truncated = true → truncated = true) :
    Kept limit pieces (trimSpace (capture limit (writes pieces)).builder) truncated := by
  have hholds := holds_capture hlimit (writes pieces)
  rw [flatten_writes hdrained] at hholds
  refine ⟨hdrained, fun hcomplete => ?_, fun _ => ?_⟩
  · have hnot : ¬ (limit < (normalised pieces).length) := by
      intro hlong
      rw [hflag (hholds.truncated.mpr hlong)] at hcomplete
      cases hcomplete
    rw [hholds.builder, List.take_of_length_le (by omega)]
  · have hlength : (((normalised pieces).take limit.toNat).length : ℤ) ≤ limit := by
      rw [List.length_take]
      omega
    have htrim := length_trimSpace_le ((normalised pieces).take limit.toNat)
    rw [hholds.builder]
    exact ⟨by omega, _, List.take_prefix _ _, hlength, rfl⟩

end Streams

theorem limitOf_pos (cmd : Command) : 0 < limitOf cmd := by
  rw [limitOf]
  split_ifs <;> omega

/-- For all streams, however they are cut into reads, and all turns of the two loops: a run reads
both to their end, and keeps them whole or says that it does not, exactly if all lines fit into the
buffer of the reader. -/
theorem run_keeps_output_iff {cmd : Command} {child : Child} {result : Result}
    {error : Option RunError} (h : run cmd (some child) = .ok (result, error)) :
    Kept (limitOf cmd) child.stdout result.stdout result.truncated ∧
        Kept (limitOf cmd) child.stderr result.stderr result.truncated ↔
      LinesFit child.stdout ∧ LinesFit child.stderr := by
  constructor
  · rintro ⟨hout, herr⟩
    exact ⟨full_copyStream_eq_false_iff.mp hout.drained,
      full_copyStream_eq_false_iff.mp herr.drained⟩
  · rintro ⟨hout, herr⟩
    have hlimit : 0 ≤ limitOf cmd := (limitOf_pos cmd).le
    rw [run] at h
    by_cases hpath : Text.trimSpace cmd.path = ""
    · rw [if_pos hpath] at h
      cases h
    · rw [if_neg hpath] at h
      obtain ⟨rfl, -⟩ := Prod.mk.inj (Except.ok.inj h)
      constructor
      · refine kept_of_drained hlimit (full_copyStream_eq_false_iff.mpr hout) fun hflag => ?_
        rw [hflag, Bool.true_or, Bool.true_or]
      · refine kept_of_drained hlimit (full_copyStream_eq_false_iff.mpr herr) fun hflag => ?_
        rw [hflag, Bool.or_true, Bool.true_or]

/-- A command that prints one short line, in two writes. -/
def greeting : Child := ⟨[[0x68], [0x69, 0x0a]], [], [], .ok⟩

/-- A command that prints a mebibyte without a line end. -/
def longLine : Child := ⟨[List.replicate (1024 * 1024) 0x61], [], [], .ok⟩

def printCommand : Command := ⟨"/usr/bin/printf", [], 0⟩

theorem run_keeps_greeting :
    Kept (limitOf printCommand) greeting.stdout [0x68, 0x69] false ∧
      Kept (limitOf printCommand) greeting.stderr [] false := by
  have hrun : run printCommand (some greeting) =
      .ok (⟨0, [0x68, 0x69], [], [0x68, 0x69], false⟩, none) := by
    decide
  have hout : LinesFit greeting.stdout := by
    intro part hpart
    have hparts : greeting.stdout.flatten.splitOn 0x0a = [[0x68, 0x69], []] := by decide
    rw [hparts] at hpart
    revert part
    simp
  have herr : LinesFit greeting.stderr := by
    intro part hpart
    have hparts : greeting.stderr.flatten.splitOn 0x0a = [[]] := by decide
    rw [hparts] at hpart
    revert part
    simp
  exact (run_keeps_output_iff hrun).mpr ⟨hout, herr⟩

/-- A line of a mebibyte is lost, and the result does not say so. -/
theorem longLine_lost :
    run printCommand (some longLine) = .ok (⟨0, [], [], [], false⟩, none) ∧
      ¬ Kept (limitOf printCommand) longLine.stdout [] false := by
  have hflatten : longLine.stdout.flatten = List.replicate (1024 * 1024) 0x61 :=
    List.append_nil _
  have hnewline : (0x0a : UInt8) ∉ longLine.stdout.flatten := by
    rw [hflatten]
    exact fun h => absurd (List.eq_of_mem_replicate h) (by decide)
  have hfull : (copyStream longLine.stdout).full = true := by
    refine Bool.eq_true_of_not_eq_false fun hdrained => ?_
    have hself : longLine.stdout.flatten ∈ longLine.stdout.flatten.splitOn 0x0a := by
      rw [List.splitOn_eq_singleton hnewline]
      exact List.mem_singleton_self _
    have hfits := full_copyStream_eq_false_iff.mp hdrained _ hself
    rw [hflatten, List.length_replicate] at hfits
    exact lt_irrefl _ hfits
  have hwrites : writes longLine.stdout = [] := by
    have hfound : (copyStream longLine.stdout).found = [] := by
      rw [copyStream, ScanLines.readAll_eq_read_flatten]
      exact ScanLines.found_read hnewline
    rw [writes, ScanLines.Reading.tokens, if_pos (.inl hfull), hfound, List.flatMap_nil]
  have herr : writes longLine.stderr = [] := rfl
  refine ⟨?_, fun h => ?_⟩
  · rw [run, hwrites, herr]
    rfl
  · rw [h.drained] at hfull
    cases hfull

end PmxAgents.HardwareInstaller.Runner
