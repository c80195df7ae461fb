import PmxAgents.Backup.KeepSet
import PmxAgents.Shared.Envelope

/-!
# The retention command

The handler of `backup.retention.apply`: parameters are read from the map of the
envelope with defaults, and the policy is applied to the chosen directory. A guest
number is read as a text, so a number in its place counts as no guest at all.

## Implementation notes

A value of type `int` does not come out of the decoder and has no case here. A
floating-point number outside the range of `int` converts to the least integer,
as on amd64.
-/

namespace PmxAgents.Backup

open Lib Lib.FileSystem Lib.Text Shared

abbrev Params := List (String × Any)

def stringParam (params : Params) (key fallback : String) : String :=
  match params.lookup key with
  | some (.string s) => if trimSpace s = "" then fallback else trimSpace s
  | _ => fallback

/-- The integer part of a floating-point number, as `int` converts it. -/
def truncFloat (bits : UInt64) : Int :=
  let exponent := (bits >>> 52).toNat % 2048
  let mantissa := bits.toNat % 2 ^ 52 + 2 ^ 52
  let magnitude : ℕ := if 1075 ≤ exponent then mantissa * 2 ^ (exponent - 1075)
    else mantissa / 2 ^ (1075 - exponent)
  let value : Int := if bits >>> 63 = 1 then -magnitude else magnitude
  if exponent = 0 then 0
  else if exponent = 2047 ∨ value < -2 ^ 63 ∨ 2 ^ 63 ≤ value then -2 ^ 63
  else value

/-- The integer at the start of a text, for the verb `%d`. -/
def sscanfInt (s : List Char) : Option Int :=
  let (negative, digits) :=
    match s with
    | '-' :: rest => (true, rest.takeWhile Char.isDigit)
    | '+' :: rest => (false, rest.takeWhile Char.isDigit)
    | _ => (false, s.takeWhile Char.isDigit)
  let magnitude : ℕ := digits.foldl (fun v c => 10 * v + (c.toNat - '0'.toNat)) 0
  let value : Int := if negative then -magnitude else magnitude
  if digits = [] ∨ value < -2 ^ 63 ∨ 2 ^ 63 ≤ value then none else some value

def intParam (params : Params) (key : String) (fallback : Int) : Int :=
  match params.lookup key with
  | some (.int64 i) => i.toInt
  | some (.uint64 n) => n.toInt64.toInt
  | some (.float64 bits) => truncFloat bits
  | some (.string s) =>
      if trimSpace s = "" then fallback else (sscanfInt (trim s.toList)).getD fallback
  | _ => fallback

def boolParam (params : Params) (key : String) : Bool :=
  match params.lookup key with
  | some (.bool b) => b
  | some (.string s) =>
      (trim s.toList).map Char.toLower ∈ ["1".toList, "true".toList, "yes".toList]
  | some (.float64 bits) => bits <<< 1 ≠ 0
  | _ => false

def firstNonEmpty (values : List String) : String :=
  ((values.map trimSpace).find? (· ≠ "")).getD ""

/-- The storage part of the configuration; it lists at least one root. -/
structure Storage where
  archiveRoots : List String
  nonempty : archiveRoots ≠ []

inductive CommandError where
  | busy
  | retention (e : RetentionError)
  deriving DecidableEq

def retentionParams (storage : Storage) (params : Params) : ApplyParams :=
  { archiveRoot := firstNonEmpty
      [stringParam params "archive_root" "", storage.archiveRoots.head storage.nonempty]
    archiveRoots := storage.archiveRoots
    vmid := stringParam params "vmid" ""
    policy :=
      { keepDailies := intParam params "keep_dailies" 7
        keepWeeklies := intParam params "keep_weeklies" 4
        keepMonthlies := intParam params "keep_monthlies" 12 }
    dryRun := boolParam params "dry_run" }

/-- The handler; `busy` tells whether all job slots are taken. -/
def retentionApply (S : SortSlice) (refuses : Path → Bool) (storage : Storage) (busy : Bool)
    (fs : Fs) (params : Params) : Fs × Except CommandError ApplyResult :=
  if busy then (fs, .error .busy)
  else
    match apply S refuses fs (retentionParams storage params) with
    | (fs', .error e) => (fs', .error (.retention e))
    | (fs', .ok res) => (fs', .ok res)

section
variable {S : SortSlice} {refuses : Path → Bool} {storage : Storage} {busy : Bool} {fs : Fs}
  {params : Params} {root : Path}

/-- The directory a request is about, when it passes the checks. -/
def IsRoot (fs : Fs) (storage : Storage) (params : Params) (root : Path) : Prop :=
  ensureWritableDirectory fs (.parse (retentionParams storage params).archiveRoot)
    storage.archiveRoots = .ok root

theorem retentionApply_fs : (retentionApply S refuses storage busy fs params).1 =
    if busy then fs else (apply S refuses fs (retentionParams storage params)).1 := by
  unfold retentionApply
  split
  · rfl
  · rcases apply S refuses fs (retentionParams storage params) with ⟨fs', r⟩
    cases r <;> rfl

theorem apply_fs_of_no_root {p : ApplyParams}
    (h : ∀ root, ensureWritableDirectory fs (.parse p.archiveRoot) p.archiveRoots ≠ .ok root) :
    (apply S refuses fs p).1 = fs := by
  unfold apply
  split
  · rfl
  · split
    · rfl
    · rename_i root hroot
      exact absurd hroot (h root)

theorem vmidFilter_string {s : String} (h : params.lookup "vmid" = some (.string s))
    (hs : trimSpace s ≠ "") : (retentionParams storage params).vmidFilter = trimSpace s := by
  have hvmid : (retentionParams storage params).vmid = trimSpace s := by
    simp only [retentionParams, stringParam, h, if_neg hs]
  rw [ApplyParams.vmidFilter, hvmid]
  exact trimSpace_trimSpace s

theorem vmidFilter_absent (storage : Storage) (h : params.lookup "vmid" = none) :
    (retentionParams storage params).vmidFilter = "" := by
  simp only [ApplyParams.vmidFilter, retentionParams, stringParam, h]
  decide

/-- A path that a request removes belongs to a condemned file. -/
theorem removed_of_node_none {p : Path}
    (hdir : ∀ root, IsRoot fs storage params root →
      VzdumpDirectory fs root (retentionParams storage params).vmidFilter)
    (hp : fs.node p ≠ none)
    (hgone : (retentionApply S refuses storage busy fs params).1.node p = none) :
    ∃ root, IsRoot fs storage params root ∧
      ∃ a ∈ condemned S fs root (retentionParams storage params), p ∈ sidecarCandidates a.path := by
  rw [retentionApply_fs] at hgone
  split at hgone
  · exact absurd hgone hp
  · by_cases hroot : ∃ root, IsRoot fs storage params root
    · obtain ⟨root, hroot⟩ := hroot
      rcases (apply_spec hroot (hdir root hroot) S refuses).1 p with h | h
      · exact absurd (h ▸ hgone) hp
      · exact ⟨root, hroot, h.1⟩
    · rw [apply_fs_of_no_root fun root h => hroot ⟨root, h⟩] at hgone
      exact absurd hgone hp

/-- With a guest given as a text only files of that guest are deleted, in a failing pass too.
Without a guest no archive is deleted that the policy is for among all listed files. -/
theorem retentionApply_deletes (S : SortSlice) (refuses : Path → Bool) (busy : Bool)
    (hdir : ∀ root, IsRoot fs storage params root →
      VzdumpDirectory fs root (retentionParams storage params).vmidFilter) :
    (∀ s, params.lookup "vmid" = some (.string s) → trimSpace s ≠ "" →
      ∀ p, fs.node p ≠ none → (retentionApply S refuses storage busy fs params).1.node p = none →
        ∃ root name a, IsRoot fs storage params root ∧ p = root ++ [name] ∧
          parseArchiveFileName name = some a ∧ a.vmid = trimSpace s) ∧
    (params.lookup "vmid" = none →
      ∀ root, IsRoot fs storage params root → ∀ a ∈ listing fs root "",
        isSidecar a.fileName = false →
        Wanted (retentionParams storage params).policy (S.run (listing fs root "")) a →
          (retentionApply S refuses storage busy fs params).1.node a.path = fs.node a.path) := by
  constructor
  · intro s hs hne p hp hgone
    obtain ⟨root, hroot, a, ha, hcand⟩ := removed_of_node_none hdir hp hgone
    obtain ⟨hpath, -, hparse, hfilter⟩ := mem_listing.mp (mem_condemned.mp ha).1
    rw [vmidFilter_string hs hne] at hfilter
    rw [hpath] at hcand
    obtain ⟨name, -, rfl⟩ := List.mem_map.mp (sidecarCandidates_entry ▸ hcand)
    exact ⟨root, name, _, hroot, rfl, parse_candidate hparse hcand, hfilter.resolve_left hne⟩
  · intro hnone root hroot a ha hreal hwanted
    have hfilter := vmidFilter_absent storage hnone
    rw [retentionApply_fs]
    split
    · rfl
    · refine kept_stays hroot (hdir root hroot) hreal (hfilter ▸ ha) fun hcond => ?_
      have hnot := (mem_condemned.mp hcond).2
      rw [hfilter] at hnot
      exact hnot ((mem_keepSet_listing S ha).mpr hwanted)

end

def dumpStorage : Storage := ⟨["/dump"], by simp⟩

/-- Keep one day, with the given further parameters. -/
def keepOneDay (more : Params) : Params :=
  more ++ [("keep_dailies", Any.uint64 1), ("keep_weeklies", .uint64 0),
    ("keep_monthlies", .uint64 0)]

/-- An archive of guest 1 and a day before it one of guest 2. -/
def twoGuests : Fs :=
  dumpWith ["vzdump-lxc-1-2024_01_02-00_00_00.tar", "vzdump-lxc-2-2024_01_01-00_00_00.tar"]

/-- A request for guest 1 leaves the archive of the other guest. -/
theorem retentionApply_deletes_two :
    (retentionApply insertion (fun _ => false) dumpStorage false twoGuests
      (keepOneDay [("vmid", .string "1")])).1.node
        ["dump", "vzdump-lxc-2-2024_01_01-00_00_00.tar"] ≠ none := by
  have hdir : ∀ root, IsRoot twoGuests dumpStorage (keepOneDay [("vmid", .string "1")]) root →
      VzdumpDirectory twoGuests root
        (retentionParams dumpStorage (keepOneDay [("vmid", .string "1")])).vmidFilter := by
    intro root hroot
    have hdump : IsRoot twoGuests dumpStorage (keepOneDay [("vmid", .string "1")]) ["dump"] := by
      rfl
    obtain rfl : root = ["dump"] := Except.ok.inj (hroot.symm.trans hdump)
    exact vzdumpDirectory_dumpWith _ _ (by decide +kernel)
  intro hgone
  obtain ⟨root, name, a, -, hp, hparse, hvmid⟩ :=
    (retentionApply_deletes insertion (fun _ => false) false hdir).1 "1" rfl (by decide) _
      (by decide +kernel) hgone
  obtain ⟨rfl, rfl⟩ : root = ["dump"] ∧ name = "vzdump-lxc-2-2024_01_01-00_00_00.tar" := by
    simpa [eq_comm] using List.append_inj' (show ["dump"] ++ [_] = root ++ [name] from hp) rfl
  have hother : (parseArchiveFileName "vzdump-lxc-2-2024_01_01-00_00_00.tar").map Archive.vmid =
      some "2" := by decide +kernel
  rw [hparse, Option.map_some, hvmid] at hother
  exact absurd hother (by decide)

/-- A guest given as a number is overlooked, a request without a guest lets the guests compete
for the days, a link leads to the file of another guest, and white space at the end of a name
leads to a file that is kept. -/
theorem retentionApply_deletes_others :
    let pass := fun fs params =>
      (retentionApply insertion (fun _ => false) dumpStorage false fs params).1
    let other := ["dump", "vzdump-lxc-2-2024_01_01-00_00_00.tar"]
    let linked := (["dump", "vzdump-lxc-1-2024_01_01-00_00_00.tar"],
      Node.symlink "vzdump-lxc-2-2024_01_01-00_00_00.tar") :: twoGuests
    let spaced := dumpWith ["vzdump-lxc-2-2024_01_01-00_00_00.tar",
      "vzdump-lxc-2-2024_01_01-00_00_00.tar "]
    twoGuests.node other = some (.file []) ∧ spaced.node other = some (.file []) ∧
      other ∈ computeKeepSet (insertion.run (listing twoGuests ["dump"] "2")) ⟨1, 0, 0⟩ ∧
      other ∈ computeKeepSet (insertion.run (listing spaced ["dump"] "2")) ⟨1, 0, 0⟩ ∧
      (pass twoGuests (keepOneDay [("vmid", .uint64 1)])).node other = none ∧
      (pass twoGuests (keepOneDay [])).node other = none ∧
      (pass linked (keepOneDay [("vmid", .string "1")])).node other = none ∧
      (pass spaced (keepOneDay [])).node other = none := by
  decide +kernel

end PmxAgents.Backup
