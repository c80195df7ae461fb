import PmxAgents.HardwareInstaller.ScriptNetwork
import PmxAgents.Lib.Cbor

/-!
# The descriptor of a script

A verified script is written to a sealed file in memory, and the command that runs it gets that file
as its only extra file. The path that the command is given is made from the number of the descriptor
in the agent. In the command the first extra file has the number 3, whatever its number was before.

## Implementation notes

The directory of a process's descriptors has one entry for each of them, under its number. Opening
an entry of a file in memory reads it from its start.
-/

namespace PmxAgents.HardwareInstaller

open Lib Lib.Cbor

/-! ## The sealed file -/

/-- A file in memory. -/
structure Memfd where
  content : Bytes
  position : ℕ
  sealed : Bool

/-- How the kernel answers: with a descriptor, and whether each of the later calls succeeds. -/
structure Sealing where
  create : Option ℕ
  write : Bool
  seek : Bool
  addSeals : Bool

def createSealedScriptMemfd (kernel : Sealing) (script : Bytes) : Option (ℕ × Memfd) :=
  match kernel.create with
  | none => none
  | some fd =>
      let empty : Memfd := ⟨[], 0, false⟩
      if kernel.write = false then none
      else
        let written : Memfd :=
          { empty with content := empty.content ++ script, position := script.length }
        if kernel.seek = false then none
        else
          let rewound : Memfd := { written with position := 0 }
          if kernel.addSeals = false then none
          else some (fd, { rewound with sealed := true })

/-! ## The command's descriptors -/

inductive OpenFile where
  | devNull
  | pipe
  | memfd (file : Memfd)

/-- What reading a file from its start yields; the command has the writing ends of its pipes. -/
def OpenFile.read : OpenFile → Option Bytes
  | .devNull => some []
  | .pipe => none
  | .memfd file => some file.content

/-- The descriptors of a started command: the standard ones and one for each extra file. -/
def childFiles (extraFiles : List OpenFile) : List (ℕ × OpenFile) :=
  [(0, .devNull), (1, .pipe), (2, .pipe)] ++ (extraFiles.zipIdx 3).map Prod.swap

/-- The file that a path in the directory of the descriptors is for. -/
def procSelfFd (files : List (ℕ × OpenFile)) (path : String) : Option OpenFile :=
  (files.find? fun entry => "/proc/self/fd/" ++ toString entry.1 = path).map Prod.snd

/-- The path that the interpreter is given. -/
def Launch.scriptPath (launch : Launch) : Option String := launch.args.getLast?

/-- The bytes that the interpreter reads as its script. -/
def executed (file : Memfd) (launch : Launch) : Option Bytes :=
  (launch.scriptPath.bind (procSelfFd (childFiles [.memfd file]))).bind OpenFile.read

/-! ## The host of a request -/

/-- Decoding and checking a script, and what a run finds on the host besides. -/
structure ScriptHost where
  decodeScript : String → Except String Bytes
  checkSignature : Bytes → String → Except String Unit
  kernel : Sealing
  disk : MakeDirs.Disk
  lookupEnv : String → Option String

/-- The bytes that are verified are those that are sealed. -/
def ScriptHost.host (h : ScriptHost) (req : RunRequest) : Host where
  verify script signature :=
    match h.decodeScript script with
    | .error reason => .error reason
    | .ok bytes => h.checkSignature bytes signature
  disk := h.disk
  memfd :=
    match h.decodeScript req.script with
    | .error _ => none
    | .ok bytes => (createSealedScriptMemfd h.kernel bytes).map fun sealed => (sealed.1 : ℤ)
  lookupEnv := h.lookupEnv

/-! ## What is executed -/

theorem createSealedScriptMemfd_content {kernel : Sealing} {script : Bytes} {fd : ℕ} {file : Memfd}
    (h : createSealedScriptMemfd kernel script = some (fd, file)) : file.content = script := by
  rw [createSealedScriptMemfd] at h
  cases hcreate : kernel.create with
  | none =>
      rw [hcreate] at h
      cases h
  | some fd' =>
      rw [hcreate] at h
      dsimp only at h
      split_ifs at h
      obtain ⟨-, rfl⟩ := Prod.mk.inj (Option.some.inj h)
      rfl

theorem toString_inj {m n : ℕ} (h : toString m = toString n) : m = n := by
  have hlist : ∀ k : ℕ, (toString k).toList = Nat.toDigits 10 k := fun _ => Nat.toList_repr
  have hdigits : Nat.toDigits 10 m = Nat.toDigits 10 n := by
    rw [← hlist, ← hlist, h]
  have hm := Nat.ofDigitChars_ten_toDigits (n := m)
  rw [hdigits, Nat.ofDigitChars_ten_toDigits] at hm
  exact hm.symm

/-- A path is for the descriptor of its number. -/
theorem procSelfFd_toString (files : List (ℕ × OpenFile)) (n : ℕ) :
    procSelfFd files ("/proc/self/fd/" ++ toString n) =
      (files.find? fun entry => entry.1 = n).map Prod.snd := by
  have hsame : ∀ entry : ℕ × OpenFile,
      decide ("/proc/self/fd/" ++ toString entry.1 = "/proc/self/fd/" ++ toString n) =
        decide (entry.1 = n) := by
    intro entry
    refine decide_eq_decide.mpr ⟨fun h => ?_, fun h => by rw [h]⟩
    exact toString_inj (String.append_right_inj _ |>.mp h)
  rw [procSelfFd]
  simp only [hsame]

theorem buildExecTarget_args {interpreter execPath : String} {fd : ℕ} {execArgs : List String}
    (h : buildExecTarget interpreter fd = .ok (execPath, execArgs)) :
    execArgs = ["/proc/self/fd/" ++ toString (fd + 3)] := by
  have hnumber : toString ((fd : ℤ) + 3) = toString (fd + 3) := rfl
  rw [buildExecTarget, hnumber] at h
  split_ifs at h
  · exact (Prod.mk.inj (Except.ok.inj h)).2.symm
  · exact (Prod.mk.inj (Except.ok.inj h)).2.symm

/-- The command ends with the path that is made from the number. -/
theorem getLast?_of_args {interpreter : String} {fd : ℕ} {writePaths allow args : List String}
    {net : Bool} (h : buildSystemdRunArgs interpreter fd writePaths net allow = .ok args) :
    args.getLast? = some ("/proc/self/fd/" ++ toString (fd + 3)) := by
  rw [buildSystemdRunArgs] at h
  cases htarget : buildExecTarget interpreter fd with
  | error e =>
      rw [htarget] at h
      cases h
  | ok target =>
      obtain ⟨execPath, execArgs⟩ := target
      obtain rfl := buildExecTarget_args htarget
      rw [htarget] at h
      cases hnetwork : networkOptions net allow with
      | error e =>
          simp only [hnetwork] at h
          cases h
      | ok network =>
          simp only [hnetwork] at h
          obtain rfl := Except.ok.inj h
          rw [List.getLast?_append_of_ne_nil _ (List.cons_ne_nil _ _), List.getLast?_cons_cons,
            List.getLast?_singleton]

/-- In the command, only the number 3 is for an extra file. -/
theorem executed_eq_some_iff {file : Memfd} {launch : Launch} {fd : ℕ}
    (h : launch.args.getLast? = some ("/proc/self/fd/" ++ toString (fd + 3))) :
    executed file launch = some file.content ↔ fd = 0 := by
  have hfiles : childFiles [.memfd file] =
      [(0, .devNull), (1, .pipe), (2, .pipe), (3, .memfd file)] := rfl
  rw [executed, Launch.scriptPath, h, Option.bind_some, procSelfFd_toString, hfiles]
  cases fd with
  | zero => exact iff_of_true rfl rfl
  | succ fd =>
      -- no descriptor has a number above 3
      have hnone : [(0, OpenFile.devNull), (1, .pipe), (2, .pipe), (3, .memfd file)].find?
          (fun entry => entry.1 = fd + 1 + 3) = none := by
        simp
      rw [hnone]
      exact iff_of_false nofun (Nat.succ_ne_zero fd)

/-- For every script and every number of its descriptor: a run that starts the command has verified
the script, and what the interpreter executes is that script exactly if the number is 0. -/
theorem executed_iff {h : ScriptHost} {p : Params} {req : RunRequest} {launch : Launch}
    (hrun : (run (h.host req) p req).2 = .ok launch) :
    ∃ script fd file, h.decodeScript req.script = .ok script ∧
      h.checkSignature script req.scriptSignature = .ok () ∧
      createSealedScriptMemfd h.kernel script = some (fd, file) ∧
      (executed file launch = some script ↔ fd = 0) := by
  obtain ⟨interpreter, scriptFD, writePaths, hverify, hmemfd, hargs⟩ := args_of_run hrun
  cases hdecode : h.decodeScript req.script with
  | error reason =>
      simp only [ScriptHost.host, hdecode] at hverify
      cases hverify
  | ok script =>
      simp only [ScriptHost.host, hdecode] at hverify hmemfd
      obtain ⟨⟨fd, file⟩, hsealed, rfl⟩ := Option.map_eq_some_iff.mp hmemfd
      refine ⟨script, fd, file, rfl, hverify, hsealed, ?_⟩
      rw [← createSealedScriptMemfd_content hsealed]
      exact executed_eq_some_iff (getLast?_of_args hargs)

/-- A host on which every script is signed and the file in memory gets the descriptor. -/
def sealingHost (fd : ℕ) : ScriptHost where
  decodeScript _ := .ok [0x65, 0x63, 0x68, 0x6f, 0x0a]
  checkSignature _ _ := .ok ()
  kernel := ⟨some fd, true, true, true⟩
  disk := flatDisk ["tmp"]
  lookupEnv _ := none

theorem executed_iff_seven :
    ∃ script fd file,
      (sealingHost 7).decodeScript (networkRequest ["10.0.0.0/8"]).script = .ok script ∧
      (sealingHost 7).checkSignature script (networkRequest ["10.0.0.0/8"]).scriptSignature =
        .ok () ∧
      createSealedScriptMemfd (sealingHost 7).kernel script = some (fd, file) ∧
      (executed file (networkLaunch ["10.0.0.0/8"]) = some script ↔ fd = 0) := by
  have hrun : (run ((sealingHost 7).host (networkRequest ["10.0.0.0/8"])) bashParams
      (networkRequest ["10.0.0.0/8"])).2 = .ok (networkLaunch ["10.0.0.0/8"]) := by
    decide
  exact executed_iff hrun

/-- With the file at 7 in the agent, the path names a descriptor that the command does not have. -/
theorem descriptor_seven_not_executed :
    (run ((sealingHost 7).host (networkRequest ["10.0.0.0/8"])) bashParams
        (networkRequest ["10.0.0.0/8"])).2 = .ok (networkLaunch ["10.0.0.0/8"]) ∧
      createSealedScriptMemfd (sealingHost 7).kernel [0x65, 0x63, 0x68, 0x6f, 0x0a] =
        some (7, ⟨[0x65, 0x63, 0x68, 0x6f, 0x0a], 0, true⟩) ∧
      (networkLaunch ["10.0.0.0/8"]).scriptPath = some "/proc/self/fd/10" ∧
      executed ⟨[0x65, 0x63, 0x68, 0x6f, 0x0a], 0, true⟩ (networkLaunch ["10.0.0.0/8"]) = none := by
  refine ⟨by decide, rfl, rfl, ?_⟩
  decide

end PmxAgents.HardwareInstaller
