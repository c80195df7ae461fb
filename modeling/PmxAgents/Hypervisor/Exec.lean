import PmxAgents.Lib.Cbor
import PmxAgents.Lib.Dialogue
import PmxAgents.Lib.Text

/-!
# Commands of the hypervisor agent

The agent works by running the tools of the host. What it learns from a run is the output
and one number: the exit code of the process, or a negative number if it could not be started
or did not end in time. The parameters of a request come as a map of values of any kind and
are read by name with a default.

## Implementation notes

A number is the integer that the conversion of the language gives. The output of a tool is a
text.
-/

namespace PmxAgents.Hypervisor

open Lib Lib.Text Lib.Cbor Lib.Dialogue

/-! ## Parameters -/

inductive Value where
  | str (s : String)
  | bool (b : Bool)
  | num (n : ℤ)
  | other
  deriving DecidableEq, Repr

abbrev Params := List (String × Value)

def stringParam (params : Params) (key fallback : String) : String :=
  match params.lookup key with
  | some (.str s) => if trimSpace s = "" then fallback else trimSpace s
  | _ => fallback

def boolParam (params : Params) (key : String) : Bool :=
  match params.lookup key with
  | some (.bool b) => b
  | some (.str s) => s = "true" || s = "1" || s = "yes"
  | _ => false

def intParam (params : Params) (key : String) (fallback : ℤ) : ℤ :=
  match params.lookup key with
  | some (.num n) => n
  | _ => fallback

def isSafeToken (value : String) : Bool :=
  value ≠ "" && value.toList.all fun c =>
    c == '.' || c == '_' || c == '-' || c == '/' || c.isAlphanum

/-- A number from 100 on, of at most nine digits. -/
def isNumericVMID (s : String) : Bool :=
  s ≠ "" && (utf8 s).length ≤ 9 && s.toList.all Char.isDigit &&
    100 ≤ Nat.ofDigitChars 10 s.toList 0

inductive ParamError where
  | required (key : String)
  | badCharacters (key value : String)
  | notVMID (key value : String)
  deriving DecidableEq, Repr

def requiredSafeToken (params : Params) (key : String) : Except ParamError String :=
  let value := stringParam params key ""
  if value = "" then .error (.required key)
  else if isSafeToken value = false then .error (.badCharacters key value)
  else .ok value

def requiredVMID (params : Params) (key : String) : Except ParamError String :=
  let value := stringParam params key ""
  if value = "" then .error (.required key)
  else if isNumericVMID value = false then .error (.notVMID key value)
  else .ok value

theorem requiredVMID_eq_ok {params : Params} {key vmid : String}
    (h : requiredVMID params key = .ok vmid) : vmid = stringParam params key "" := by
  rw [requiredVMID] at h
  split_ifs at h
  exact (Except.ok.inj h).symm

/-! ## Running a tool -/

inductive Tool where
  | pvesh
  | qm
  | pct
  | pvesm
  | pvecm
  deriving DecidableEq, Repr

/-- A tool and its arguments. -/
abbrev Query := Tool × List String

/-- The process ended with a code that is not zero, or there was another error: it could not be
started, or its context was cancelled. -/
inductive Failure where
  | exit (code : ℤ) (nonzero : code ≠ 0)
  | other

/-- What is left of a process: its output, its failure, and whether its deadline had passed. -/
structure Ended where
  stdout : String
  stderr : String
  failure : Option Failure
  deadline : Bool

structure ExecResult where
  stdout : String
  stderr : String
  exitCode : ℤ

/-- The result that the agent sees, and whether there was an error with it. -/
structure Reply where
  result : Option ExecResult
  err : Bool

def exitCode (e : Ended) : ℤ :=
  match e.failure with
  | none => 0
  | some failure =>
      if e.deadline then -2
      else
        match failure with
        | .exit code _ => code
        | .other => -1

/-- The core of the execution: the result is there also after an error. -/
def execReply (e : Ended) : Reply :=
  ⟨some ⟨e.stdout, e.stderr, exitCode e⟩, e.failure.isSome⟩

/-- The exit code is zero exactly if there was no failure. -/
theorem exitCode_eq_zero_iff {e : Ended} : exitCode e = 0 ↔ e.failure = none := by
  rw [exitCode]
  cases hfailure : e.failure with
  | none => simp
  | some failure =>
      simp only [reduceCtorEq, iff_false]
      cases failure with
      | exit code nonzero =>
          split_ifs
          · decide
          · exact nonzero
      | other => split_ifs <;> decide

end PmxAgents.Hypervisor
