import PmxAgents.HardwareInstaller.WritePaths

/-!
# What a script can reach

The service manager lets a packet pass if its address is in the allow list of the unit, and
otherwise unless it is in the deny list. A unit whose options have an allow list only has no
address to deny, so the list restricts nothing.
-/

namespace PmxAgents.HardwareInstaller

open Lib Lib.Text Lib.IpText

/-- The addresses that an entry stands for: those of a prefix, or a single one. -/
def covers (entry : String) (addr : Addr) : Bool :=
  match parsePrefix entry.toList with
  | some (network, len) => network.agree len addr
  | none =>
      match parseAddr entry.toList with
      | some single => single.agree single.bits addr
      | none => false

/-- The unit of the options can exchange traffic with the address. -/
def CanReach (args : List String) (addr : Addr) : Prop :=
  "true" ∉ valuesOf "PrivateNetwork" args ∧
    ((∃ entry ∈ valuesOf "IPAddressAllow" args, covers entry addr) ∨
      ¬ ∃ entry ∈ valuesOf "IPAddressDeny" args, covers entry addr)

/-- An entry of the request covers the address. -/
def Listed (allow : List String) (addr : Addr) : Prop :=
  ∃ raw ∈ allow, covers (trimSpace raw) addr

section Runs
variable {host : Host} {p : Params} {req : RunRequest} {launch : Launch}
variable {interpreter : String} {scriptFD : ℤ} {writePaths allow args : List String}

/-- A command that is started is for a verified script and has the options of the request. -/
theorem args_of_run (h : (run host p req).2 = .ok launch) :
    ∃ interpreter scriptFD writePaths,
      host.verify req.script req.scriptSignature = .ok () ∧ host.memfd = some scriptFD ∧
      buildSystemdRunArgs interpreter scriptFD writePaths req.allowNetwork req.ipAddressAllow =
        .ok launch.args := by
  rw [run] at h
  cases hchecked : checkRequest host p req with
  | error e => simp only [hchecked] at h; cases h
  | ok admitted =>
      obtain ⟨interpreter, writePaths⟩ := admitted
      have hverify : host.verify req.script req.scriptSignature = .ok () := by
        cases hverify : host.verify req.script req.scriptSignature with
        | error reason =>
            rw [checkRequest, hverify] at hchecked
            cases hchecked
        | ok _ => rfl
      simp only [hchecked] at h
      split_ifs at h with hdone
      obtain ⟨timeoutSec, -, h⟩ := Checks.bind_eq_ok.mp h
      cases hmemfd : host.memfd with
      | none => simp only [hmemfd] at h; cases h
      | some scriptFD =>
          simp only [hmemfd] at h
          obtain ⟨args, hargs, h⟩ := Checks.bind_eq_ok.mp h
          obtain ⟨env, -, h⟩ := Checks.bind_eq_ok.mp h
          obtain rfl := Except.ok.inj h
          exact ⟨interpreter, scriptFD, writePaths, hverify, rfl, hargs⟩

/-- No option of a unit with network is for a property but the allow list, apart from the fixed
ones. -/
theorem valuesOf_network {name : String} (hfixed : fixedOptions.filterMap (valueOf name) = [])
    (hwrite : ∀ value, valueOf name ("--property=ReadWritePaths=" ++ value) = none)
    (hallow : ∀ value, valueOf name ("--property=IPAddressAllow=" ++ value) = none)
    (h : buildSystemdRunArgs interpreter scriptFD writePaths true allow = .ok args) :
    valuesOf name args = [] := by
  obtain ⟨network, hnetwork, hvalues⟩ := valuesOf_args h
  rcases networkOptions_eq_ok hnetwork with ⟨hfalse, -⟩ | ⟨-, rfl, -⟩
  · cases hfalse
  · rw [hvalues, filterMap_sandboxOptions hfixed, hwrite, Option.toList_none, List.nil_append,
      List.filterMap_eq_nil_iff]
    intro arg harg
    obtain ⟨v, -, rfl⟩ := List.mem_map.mp harg
    exact hallow v

/-- A unit with network reaches every address, whatever its allow list. -/
theorem canReach_of_network
    (h : buildSystemdRunArgs interpreter scriptFD writePaths true allow = .ok args) (addr : Addr) :
    CanReach args addr := by
  have hprivate : valuesOf "PrivateNetwork" args = [] :=
    valuesOf_network (by decide +kernel)
      (valueOf_append_other (by decide) (by decide))
      (valueOf_append_other (by decide) (by decide)) h
  have hdeny : valuesOf "IPAddressDeny" args = [] :=
    valuesOf_network (by decide +kernel)
      (valueOf_append_other (by decide) (by decide))
      (valueOf_append_other (by decide) (by decide)) h
  refine ⟨by simp [hprivate], Or.inr ?_⟩
  rintro ⟨entry, hentry, -⟩
  rw [hdeny] at hentry
  cases hentry

end Runs

/-- A script reaches the listed addresses only exactly if its list covers every address. -/
theorem reaches_listed_iff (host : Host) (p : Params) (req : RunRequest) (launch : Launch)
    (hrun : (run host p req).2 = .ok launch) (hnet : req.allowNetwork = true) :
    (∀ addr, CanReach launch.args addr → Listed req.ipAddressAllow addr) ↔
      ∀ addr, Listed req.ipAddressAllow addr := by
  obtain ⟨interpreter, scriptFD, writePaths, -, -, hargs⟩ := args_of_run hrun
  rw [hnet] at hargs
  constructor
  · exact fun h addr => h addr (canReach_of_network hargs addr)
  · exact fun h addr _ => h addr

/-- A host on which every script is signed, with the sealed copy at a descriptor. -/
def signedHost : Host where
  verify _ _ := .ok ()
  disk := flatDisk ["tmp"]
  memfd := some 7
  lookupEnv _ := none

def bashParams : Params := ⟨["/bin/bash"], [], 0, 0⟩

/-- A request for a script that may talk to the listed addresses. -/
def networkRequest (allow : List String) : RunRequest where
  script := "ZWNobwo="
  scriptSignature := "00"
  interpreter := ""
  writePaths := []
  envAllowlist := []
  timeoutSeconds := 0
  allowNetwork := true
  ipAddressAllow := allow

/-- The command for the request. -/
def networkLaunch (allow : List String) : Launch where
  args := sandboxOptions ["/tmp"] ++ allow.map ("--property=IPAddressAllow=" ++ ·) ++
    ["/bin/bash", "/proc/self/fd/10"]
  env := []
  timeoutSec := 600
  outputLimit := 10485760

/-- A list of everything is respected. -/
theorem reaches_listed_any :
    (run signedHost bashParams (networkRequest ["0.0.0.0/0", "::/0"])).2 =
        .ok (networkLaunch ["0.0.0.0/0", "::/0"]) ∧
      ∀ addr, CanReach (networkLaunch ["0.0.0.0/0", "::/0"]).args addr →
        Listed ["0.0.0.0/0", "::/0"] addr := by
  have hrun : (run signedHost bashParams (networkRequest ["0.0.0.0/0", "::/0"])).2 =
      .ok (networkLaunch ["0.0.0.0/0", "::/0"]) := by
    decide +kernel
  refine ⟨hrun, (reaches_listed_iff signedHost bashParams (networkRequest ["0.0.0.0/0", "::/0"])
    (networkLaunch ["0.0.0.0/0", "::/0"]) hrun rfl).mpr ?_⟩
  have hfour : parsePrefix (trimSpace "0.0.0.0/0").toList = some (.v4 0, 0) := by decide
  have hsix : parsePrefix (trimSpace "::/0").toList = some (.v6 0, 0) := by decide
  rintro (n | n)
  · exact ⟨"0.0.0.0/0", by simp [networkRequest],
      by simp [covers, hfour, Addr.agree, BitVec.ushiftRight_eq_zero]⟩
  · exact ⟨"::/0", by simp [networkRequest],
      by simp [covers, hsix, Addr.agree, BitVec.ushiftRight_eq_zero]⟩

/-- A script that may talk to a private network can talk to everyone. -/
theorem privateList_reaches_public :
    (run signedHost bashParams (networkRequest ["10.0.0.0/8"])).2 =
        .ok (networkLaunch ["10.0.0.0/8"]) ∧
      CanReach (networkLaunch ["10.0.0.0/8"]).args (.v4 0x08080808) ∧
      ¬ Listed ["10.0.0.0/8"] (.v4 0x08080808) := by
  refine ⟨by decide +kernel, ?_, ?_⟩
  · exact ⟨by decide +kernel, Or.inr (by decide +kernel)⟩
  · rintro ⟨raw, hraw, hcovers⟩
    obtain rfl := List.mem_singleton.mp hraw
    exact absurd hcovers (by decide)

end PmxAgents.HardwareInstaller
