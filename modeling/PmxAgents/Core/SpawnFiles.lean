import Mathlib.Logic.Function.Basic
import PmxAgents.Core.Spawn
import PmxAgents.Lib.Runs

/-!
# The staged envelopes of concurrent spawns

Every call of `Spawn` writes its envelope to a file named after the job id, runs
`systemd-run`, and removes the file: at once if that failed, after a delay otherwise.
Systemd opens the file in between, and the unit reads it from there. The steps of any
number of calls are taken in any order.

The name of the file keeps only the last element of the job id, so calls with different
job ids can share a file.

## Implementation notes

A file that is written while it exists keeps its identity, and one that is removed and
written again gets a new one: `generation` counts them. What has been opened is read later,
with what the file holds then. Writing a file is one step.
-/

namespace PmxAgents.Core.Spawn

open Lib Lib.Cbor Lib.Runs

/-- A call with a job id, as `Spawn` requires, and the bytes of its envelope. -/
structure Call where
  jobID : String
  envelope : Bytes
  named : jobID ≠ ""

/-- Where a call stands. `opened` has the generation of the file that systemd opened, `read` what
the unit read; a unit whose file is `missing` does not start. -/
inductive Phase where
  | entered
  | staged
  | failed
  | discarded
  | launched
  | opened (generation : ℕ)
  | read (stdin : Bytes)
  | missing
  deriving DecidableEq, Repr

/-- A name in the staging directory: whether it exists, its latest generation, and what each
generation holds. -/
structure EnvFile where
  linked : Bool
  generation : ℕ
  contents : ℕ → Bytes

def EnvFile.write (f : EnvFile) (data : Bytes) : EnvFile :=
  let generation := if f.linked then f.generation else f.generation + 1
  ⟨true, generation, Function.update f.contents generation data⟩

def EnvFile.remove (f : EnvFile) : EnvFile := { f with linked := false }

/-- `cleaned` are the calls whose delayed removal has taken place. -/
structure Staging (ι : Type) where
  files : String → EnvFile
  phases : ι → Phase
  cleaned : ι → Bool

inductive Action (ι : Type) where
  | write (i : ι)
  | run (i : ι) (ok : Bool)
  | discard (i : ι)
  | openStdin (i : ι)
  | readStdin (i : ι)
  | cleanup (i : ι)
  deriving DecidableEq, Repr

section System
variable {ι : Type} [DecidableEq ι] (calls : ι → Call)

/-- The name of the file of a call. -/
def fileOf (i : ι) : String := envFileName (calls i).jobID

namespace Staging

def init : Staging ι := ⟨fun _ => ⟨false, 0, fun _ => []⟩, fun _ => .entered, fun _ => false⟩

def setPhase (s : Staging ι) (i : ι) (p : Phase) : Staging ι :=
  { s with phases := Function.update s.phases i p }

def setFile (s : Staging ι) (name : String) (f : EnvFile) : Staging ι :=
  { s with files := Function.update s.files name f }

/-- The file that a call has to do with. -/
def file (s : Staging ι) (i : ι) : EnvFile := s.files (fileOf calls i)

variable {s : Staging ι} {i j : ι} {p : Phase} {name other : String} {f : EnvFile}

@[simp] theorem setPhase_self : (s.setPhase i p).phases i = p := Function.update_self ..

theorem setPhase_of_ne (h : j ≠ i) : (s.setPhase i p).phases j = s.phases j :=
  Function.update_of_ne h _ _

omit [DecidableEq ι] in
@[simp] theorem setFile_self : (s.setFile name f).files name = f := Function.update_self ..

omit [DecidableEq ι] in
theorem setFile_of_ne (h : other ≠ name) : (s.setFile name f).files other = s.files other :=
  Function.update_of_ne h _ _

end Staging

/-- One step of one call. The delayed removal follows a successful start, and systemd opens the
file before it. -/
def step (s : Staging ι) : Action ι → Option (Staging ι)
  | .write i =>
      if s.phases i = .entered then
        some ((s.setFile (fileOf calls i) ((s.file calls i).write (calls i).envelope)).setPhase i
          .staged)
      else none
  | .run i ok =>
      if s.phases i = .staged then some (s.setPhase i (if ok then .launched else .failed)) else none
  | .discard i =>
      if s.phases i = .failed then
        some ((s.setFile (fileOf calls i) (s.file calls i).remove).setPhase i .discarded)
      else none
  | .openStdin i =>
      if s.phases i = .launched ∧ s.cleaned i = false then
        some (s.setPhase i
          (if (s.file calls i).linked then .opened (s.file calls i).generation else .missing))
      else none
  | .readStdin i =>
      match s.phases i with
      | .opened generation => some (s.setPhase i (.read ((s.file calls i).contents generation)))
      | _ => none
  | .cleanup i =>
      if s.phases i ∉ [.entered, .staged, .failed, .discarded] ∧ s.cleaned i = false then
        some { s.setFile (fileOf calls i) (s.file calls i).remove with
          cleaned := Function.update s.cleaned i true }
      else none

/-- Every unit that has read its standard input has read the envelope of its own call. -/
def Faithful (s : Staging ι) : Prop :=
  ∀ i stdin, s.phases i = .read stdin → stdin = (calls i).envelope

/-! ## What the files hold -/

/-- Nothing has been opened or read. -/
def Phase.Silent : Phase → Prop
  | .opened _ => False
  | .read _ => False
  | _ => True

/-- A generation of a file holds the envelope of a call with that file. -/
def Held (s : Staging ι) (name : String) (generation : ℕ) : Prop :=
  ∃ j, fileOf calls j = name ∧ (s.files name).contents generation = (calls j).envelope

/-- Whatever can be read comes from a call with the same file. -/
structure Traced (s : Staging ι) : Prop where
  linked : ∀ name, (s.files name).linked → Held calls s name (s.files name).generation
  opened : ∀ i generation, s.phases i = .opened generation →
    Held calls s (fileOf calls i) generation
  read : ∀ i stdin, s.phases i = .read stdin →
    ∃ j, fileOf calls j = fileOf calls i ∧ stdin = (calls j).envelope

variable {calls} {s t : Staging ι}

omit [DecidableEq ι] in
theorem traced_init : Traced calls (Staging.init : Staging ι) where
  linked _ h := nomatch h
  opened _ _ h := nomatch h
  read _ _ h := nomatch h

/-- A call that moves on to open or read something must have it from such a call. -/
theorem Traced.setPhase (h : Traced calls s) {i : ι} {p : Phase}
    (hopened : ∀ generation, p = .opened generation → Held calls s (fileOf calls i) generation)
    (hread : ∀ stdin, p = .read stdin →
      ∃ j, fileOf calls j = fileOf calls i ∧ stdin = (calls j).envelope) :
    Traced calls (s.setPhase i p) where
  linked := h.linked
  opened k generation hk := by
    by_cases hki : k = i
    · subst hki
      exact hopened generation (by simpa using hk)
    · exact h.opened k generation (by rwa [Staging.setPhase_of_ne hki] at hk)
  read k stdin hk := by
    by_cases hki : k = i
    · subst hki
      exact hread stdin (by simpa using hk)
    · exact h.read k stdin (by rwa [Staging.setPhase_of_ne hki] at hk)

/-- A call that moves on without its standard input. -/
theorem Traced.silent (h : Traced calls s) {i : ι} {p : Phase} (hp : p.Silent) :
    Traced calls (s.setPhase i p) := by
  refine h.setPhase ?_ ?_
  · rintro generation rfl
    exact hp.elim
  · rintro stdin rfl
    exact hp.elim

omit [DecidableEq ι] in
theorem Held.write {name : String} {generation : ℕ} (h : Held calls s name generation) (i : ι) :
    Held calls (s.setFile (fileOf calls i) ((s.file calls i).write (calls i).envelope)) name
      generation := by
  obtain ⟨j, hj, hcontents⟩ := h
  by_cases hname : name = fileOf calls i
  · subst hname
    by_cases hgen : generation = ((s.file calls i).write (calls i).envelope).generation
    · refine ⟨i, rfl, ?_⟩
      rw [hgen, Staging.setFile_self]
      exact Function.update_self ..
    · refine ⟨j, hj, ?_⟩
      rw [← hcontents, Staging.setFile_self]
      exact Function.update_of_ne hgen _ _
  · exact ⟨j, hj, by rw [Staging.setFile_of_ne hname, hcontents]⟩

omit [DecidableEq ι] in
theorem Traced.write (h : Traced calls s) (i : ι) :
    Traced calls (s.setFile (fileOf calls i) ((s.file calls i).write (calls i).envelope)) where
  linked name hlinked := by
    by_cases hname : name = fileOf calls i
    · subst hname
      refine ⟨i, rfl, ?_⟩
      rw [Staging.setFile_self]
      exact Function.update_self ..
    · rw [Staging.setFile_of_ne hname] at hlinked ⊢
      exact (h.linked name hlinked).write i
  opened k generation hk := (h.opened k generation hk).write i
  read := h.read

omit [DecidableEq ι] in
theorem Traced.remove (h : Traced calls s) (i : ι) :
    Traced calls (s.setFile (fileOf calls i) (s.file calls i).remove) := by
  have hfile : ∀ name, (s.setFile (fileOf calls i) (s.file calls i).remove).files name =
      if name = fileOf calls i then (s.files name).remove else s.files name := by
    intro name
    by_cases hname : name = fileOf calls i
    · rw [if_pos hname, hname, Staging.setFile_self, Staging.file]
    · rw [if_neg hname, Staging.setFile_of_ne hname]
  have hheld : ∀ name generation, Held calls s name generation →
      Held calls (s.setFile (fileOf calls i) (s.file calls i).remove) name generation := by
    rintro name generation ⟨j, hj, hcontents⟩
    refine ⟨j, hj, ?_⟩
    rw [hfile]
    split_ifs <;> exact hcontents
  refine ⟨fun name hlinked => ?_, fun k generation hk => hheld _ _ (h.opened k generation hk),
    h.read⟩
  rw [hfile] at hlinked ⊢
  split_ifs at hlinked ⊢
  · cases hlinked
  · exact hheld _ _ (h.linked name hlinked)

/-- The step lemma. -/
theorem Traced.step (h : Traced calls s) {a : Action ι} (hstep : step calls s a = some t) :
    Traced calls t := by
  cases a with
  | write i =>
      rw [Spawn.step] at hstep
      split_ifs at hstep
      obtain rfl := Option.some.inj hstep
      exact (h.write i).silent trivial
  | run i ok =>
      rw [Spawn.step] at hstep
      split_ifs at hstep
      · obtain rfl := Option.some.inj hstep
        exact h.silent trivial
      · obtain rfl := Option.some.inj hstep
        exact h.silent trivial
  | discard i =>
      rw [Spawn.step] at hstep
      split_ifs at hstep
      obtain rfl := Option.some.inj hstep
      exact (h.remove i).silent trivial
  | openStdin i =>
      rw [Spawn.step] at hstep
      split_ifs at hstep with _ hlinked
      · obtain rfl := Option.some.inj hstep
        refine h.setPhase (fun generation hp => ?_) fun _ hp => nomatch hp
        obtain rfl := Phase.opened.inj hp
        exact h.linked _ hlinked
      · obtain rfl := Option.some.inj hstep
        exact h.silent trivial
  | readStdin i =>
      rw [Spawn.step] at hstep
      split at hstep
      · rename_i generation hopened
        obtain rfl := Option.some.inj hstep
        refine h.setPhase (fun _ hp => nomatch hp) fun stdin hp => ?_
        obtain rfl := Phase.read.inj hp
        exact h.opened i generation hopened
      · cases hstep
  | cleanup i =>
      rw [Spawn.step] at hstep
      split_ifs at hstep
      obtain rfl := Option.some.inj hstep
      have hremoved := h.remove i
      exact ⟨hremoved.linked, hremoved.opened, hremoved.read⟩

/-- Two calls with one file: the second writes it before the unit of the first has opened it. -/
theorem read_of_shared {i j : ι} (hne : i ≠ j) (hfile : fileOf calls i = fileOf calls j) :
    ∃ s, exec (step calls) .init
        [.write i, .run i true, .write j, .openStdin i, .readStdin i] = some s ∧
      s.phases i = .read (calls j).envelope := by
  simp [exec, step, Staging.init, Staging.file, Staging.setPhase, Staging.setFile, hne, hne.symm,
    hfile, EnvFile.write]

variable (calls)

/-- In every interleaving every unit reads its own envelope, exactly if calls whose job ids have the
same last element have the same envelope. -/
theorem faithful_iff :
    (∀ actions s, exec (step calls) .init actions = some s → Faithful calls s) ↔
      ∀ i j, base (calls i).jobID = base (calls j).jobID →
        (calls i).envelope = (calls j).envelope := by
  constructor
  · intro h i j hbase
    by_cases hij : i = j
    · rw [hij]
    · obtain ⟨s, hs, hread⟩ := read_of_shared hij (envFileName_inj.mpr hbase)
      exact (h _ s hs i _ hread).symm
  · intro hsame actions s hs i stdin hread
    have hadmits : Admits (step calls) (fun _ _ => True) .init actions :=
      admits_of_forall fun _ _ => trivial
    have htraced : Traced calls s :=
      exec_invariant (fun _ _ _ h _ hstep => h.step hstep) traced_init hadmits hs
    obtain ⟨j, hj, rfl⟩ := htraced.read i stdin hread
    exact hsame j i (envFileName_inj.mp hj)

end System

/-- Two calls whose job ids have the same last element. -/
def sharedCalls : Bool → Call
  | false => ⟨"a/x", [1], by decide⟩
  | true => ⟨"b/x", [2], by decide⟩

/-- The unit of the first call reads the envelope of the second. -/
theorem other_envelope_read :
    (sharedCalls false).jobID ≠ (sharedCalls true).jobID ∧
      (sharedCalls false).envelope = [1] ∧
      ∃ s, exec (step sharedCalls) .init
          [.write false, .run false true, .write true, .openStdin false,
            .readStdin false] = some s ∧
        s.phases false = .read [2] :=
  ⟨by decide, rfl, _, rfl, by decide +kernel⟩

end PmxAgents.Core.Spawn
