import PmxAgents.Backup.Archive
import PmxAgents.Lib.Buckets
import PmxAgents.Lib.Calendar
import PmxAgents.Lib.Reader

/-!
# Retention of backup archives

The retention pass of the backup agent: the files of a directory whose names
start like a vzdump archive are listed newest first, the first file of each of
the most recent days, weeks and months is kept, and every other listed file is
removed with its sidecars.

## Implementation notes

The listing is sorted with `sort.Slice`, which promises no order among equal
timestamps. `SortSlice` stands for any sorting function that keeps the promise.
Timestamps are seconds since the Unix epoch. The keys of the passes are the dates
and week numbers that the source formats as texts.
-/

namespace PmxAgents.Backup

open Lib Lib.FileSystem Lib.Calendar Lib.Buckets

structure Policy where
  keepDailies : Int
  keepWeeklies : Int
  keepMonthlies : Int
  deriving DecidableEq

structure Archive where
  path : Path
  fileName : String
  vmid : String
  timestamp : Int
  deriving DecidableEq

structure ApplyParams where
  archiveRoot : String
  archiveRoots : List String
  vmid : String
  policy : Policy
  dryRun : Bool

structure ApplyResult where
  archiveRoot : Path
  dryRun : Bool
  evaluated : ℕ
  kept : List Path
  wouldDelete : List Path
  deleted : List Path
  deriving DecidableEq

inductive RetentionError where
  | negativePolicy
  | readDir (root : Path)
  | archive (e : ArchiveError)
  deriving DecidableEq

/-! ## File names -/

structure Stamp where
  year : ℕ
  month : ℕ
  day : ℕ
  hour : ℕ
  minute : ℕ
  second : ℕ

/-- The seconds of a stamp, when it is a time of the calendar. -/
def Stamp.seconds (t : Stamp) : Option Int :=
  if 1 ≤ t.month ∧ t.month ≤ 12 ∧ 1 ≤ t.day ∧ (t.day : Int) ≤ daysIn t.year t.month ∧
      t.hour < 24 ∧ t.minute < 60 ∧ t.second < 60 then
    some (daysOfCivil ⟨t.year, t.month, t.day⟩ * 86400 +
      (t.hour * 3600 + t.minute * 60 + t.second : ℕ))
  else none

def guestType : Reader Unit
  | 'q' :: 'e' :: 'm' :: 'u' :: rest => some ((), rest)
  | 'l' :: 'x' :: 'c' :: rest => some ((), rest)
  | _ => none

open Reader in
/-- The pattern is not anchored at the end: any rest is accepted. -/
def archiveNamePattern : Reader (String × Stamp) := do
  literal "vzdump-".toList
  guestType
  literal ['-']
  let vmid ← digitsBefore '-'
  let year ← number 4
  literal ['_']
  let month ← number 2
  literal ['_']
  let day ← number 2
  literal ['-']
  let hour ← number 2
  literal ['_']
  let minute ← number 2
  literal ['_']
  let second ← number 2
  return (String.ofList vmid, ⟨year, month, day, hour, minute, second⟩)

def parseArchiveFileName (name : String) : Option Archive := do
  let ((vmid, stamp), _) ← archiveNamePattern name.toList
  let timestamp ← stamp.seconds
  return { path := [], fileName := name, vmid, timestamp }

/-! ## Listing and keep set -/

/-- A sorting function as `sort.Slice` promises it for the newest-first comparison. -/
structure SortSlice where
  run : List Archive → List Archive
  perm : ∀ l, (run l).Perm l
  sorted : ∀ l, (run l).Pairwise fun a b => b.timestamp ≤ a.timestamp

/-- What an entry of the directory is taken for: the body of the loop over the entries. -/
def archiveOfEntry (root : Path) (vmidFilter : String) (entry : String × Node) : Option Archive :=
  if entry.2 = .dir then none
  else
    match parseArchiveFileName entry.1 with
    | none => none
    | some parsed =>
        if vmidFilter ≠ "" ∧ parsed.vmid ≠ vmidFilter then none
        else some { parsed with path := root ++ [entry.1] }

/-- The files of the directory that are taken for archives. -/
def listing (fs : Fs) (root : Path) (vmidFilter : String) : List Archive :=
  (readDir fs root).filterMap (archiveOfEntry root vmidFilter)

def enumerate (S : SortSlice) (fs : Fs) (root : Path) (vmidFilter : String) :
    Except RetentionError (List Archive) :=
  if fs.node root = some .dir then .ok (S.run (listing fs root vmidFilter))
  else .error (.readDir root)

def Archive.day (a : Archive) : Int := a.timestamp / 86400

def Archive.dayKey (a : Archive) : Date := civilOfDays a.day

def Archive.weekKey (a : Archive) : Int × Int := isoWeek a.day

def Archive.monthKey (a : Archive) : Int × Int :=
  ((civilOfDays a.day).year, (civilOfDays a.day).month)

/-- One pass: the first archive of each key, for `count` keys. -/
def keepBy {κ : Type} [DecidableEq κ] (key : Archive → κ) (count : Int)
    (archives : List Archive) : List Path :=
  if 0 < count then (firsts key count.toNat [] archives).map Archive.path else []

def computeKeepSet (archives : List Archive) (policy : Policy) : List Path :=
  keepBy Archive.dayKey policy.keepDailies archives ++
    keepBy Archive.weekKey policy.keepWeeklies archives ++
    keepBy Archive.monthKey policy.keepMonthlies archives

/-! ## Applying a policy -/

/-- The loop over the paths to delete. -/
def deleteAll (refuses : Path → Bool) (roots : List String) :
    List Path → List Path → Fs → Fs × Except RetentionError (List Path)
  | [], deleted, fs => (fs, .ok deleted)
  | path :: rest, deleted, fs =>
      match deleteArchiveWithSidecars refuses roots fs (.ofPath path) with
      | (fs', .error e) => (fs', .error (.archive e))
      | (fs', .ok d) => deleteAll refuses roots rest (deleted ++ d) fs'

def ApplyParams.vmidFilter (params : ApplyParams) : String :=
  Text.trimSpace params.vmid

/-- Keep and delete lists of the sorted archives. -/
def ApplyParams.plan (params : ApplyParams) (root : Path) (archives : List Archive) :
    ApplyResult :=
  let keepSet := computeKeepSet archives params.policy
  { archiveRoot := root
    dryRun := params.dryRun
    evaluated := archives.length
    kept := (archives.map Archive.path).filter (· ∈ keepSet)
    wouldDelete := (archives.map Archive.path).filter (· ∉ keepSet)
    deleted := [] }

/-- The archives that the policy keeps. -/
def keptOf (policy : Policy) (l : List Archive) : List Archive :=
  l.filter fun a => a.path ∈ computeKeepSet l policy

/-- The listed files outside the keep set. -/
def condemned (S : SortSlice) (fs : Fs) (root : Path) (params : ApplyParams) : List Archive :=
  let archives := S.run (listing fs root params.vmidFilter)
  archives.filter fun a => a.path ∉ computeKeepSet archives params.policy

/-- The file system after the pass and what the pass returns. -/
def apply (S : SortSlice) (refuses : Path → Bool) (fs : Fs) (params : ApplyParams) :
    Fs × Except RetentionError ApplyResult :=
  if params.policy.keepDailies < 0 ∨ params.policy.keepWeeklies < 0 ∨
      params.policy.keepMonthlies < 0 then (fs, .error .negativePolicy)
  else
    match ensureWritableDirectory fs (.parse params.archiveRoot) params.archiveRoots with
    | .error e => (fs, .error (.archive e))
    | .ok root =>
        match enumerate S fs root params.vmidFilter with
        | .error e => (fs, .error e)
        | .ok archives =>
            let res := params.plan root archives
            if params.dryRun then (fs, .ok res)
            else
              match deleteAll refuses params.archiveRoots res.wouldDelete [] fs with
              | (fs', .error e) => (fs', .error e)
              | (fs', .ok deleted) => (fs', .ok { res with deleted })

/-! ## Names derived from an archive name -/

section Names
variable {name c : String} {a : Archive}

def NoDot (c : Char) : Prop := c ≠ '.'

theorem guestType_local : Reader.Local NoDot guestType := by
  intro s u t h
  unfold guestType at h
  split at h
  · cases h
    exact ⟨['q', 'e', 'm', 'u'], rfl, by simp [NoDot], fun u => rfl⟩
  · cases h
    exact ⟨['l', 'x', 'c'], rfl, by simp [NoDot], fun u => rfl⟩
  · cases h

theorem archiveNamePattern_local : Reader.Local NoDot archiveNamePattern := by
  have hdigit : ∀ c : Char, c.isDigit → NoDot c := by
    rintro c hc rfl
    exact absurd hc (by decide)
  have hnum : ∀ n, Reader.Local NoDot (Reader.number n) := fun n => Reader.number_local hdigit
  have hdash : Reader.Local NoDot (Reader.literal ['-']) :=
    Reader.literal_local (by simp [NoDot])
  have hlow : Reader.Local NoDot (Reader.literal ['_']) :=
    Reader.literal_local (by simp [NoDot])
  have hvmid : Reader.Local NoDot (Reader.digitsBefore '-') :=
    Reader.digitsBefore_local (by decide) (by simp [NoDot]) hdigit
  refine (Reader.literal_local (by simp [NoDot])).bind fun _ => guestType_local.bind fun _ =>
    hdash.bind fun _ => hvmid.bind fun _ => (hnum 4).bind fun _ => hlow.bind fun _ =>
    (hnum 2).bind fun _ => hlow.bind fun _ => (hnum 2).bind fun _ => hdash.bind fun _ =>
    (hnum 2).bind fun _ => hlow.bind fun _ => (hnum 2).bind fun _ => hlow.bind fun _ =>
    (hnum 2).bind fun _ => Reader.Local.pure _

/-- A name is accepted by a start without dots, whatever follows it. -/
theorem parseArchiveFileName_local (h : parseArchiveFileName name = some a) :
    ∃ start rest, name.toList = start ++ rest ∧ '.' ∉ start ∧
      ∀ c u, c.toList = start ++ u → parseArchiveFileName c = some { a with fileName := c } := by
  simp only [parseArchiveFileName, bind, Option.bind_eq_some_iff] at h
  obtain ⟨⟨⟨vmid, stamp⟩, rest⟩, hpat, timestamp, hsec, ha⟩ := h
  cases ha
  obtain ⟨start, hname, hdot, hloc⟩ := archiveNamePattern_local _ _ _ hpat
  refine ⟨start, rest, hname, fun hmem => hdot _ hmem rfl, fun c u hc => ?_⟩
  simp only [parseArchiveFileName, hc, hloc u, bind, Option.bind, hsec, pure]

theorem stem_toList (h : '.' ∈ name.toList) :
    ∃ ext, name.toList = (stem name).toList ++ '.' :: ext := by
  have hmem : '.' ∈ name.toList.reverse := List.mem_reverse.mpr h
  have hsplit := List.takeWhile_append_dropWhile (p := (· ≠ '.')) (l := name.toList.reverse)
  rw [stem, if_pos h, String.toList_ofList]
  cases hd : name.toList.reverse.dropWhile (· ≠ '.') with
  | nil =>
      rw [List.dropWhile_eq_nil_iff] at hd
      exact absurd (hd '.' hmem) (by simp)
  | cons x rest =>
      have hx : x = '.' := by
        have hhead := List.head?_dropWhile_not (· ≠ '.') name.toList.reverse
        rw [hd] at hhead
        simpa using hhead
      subst hx
      rw [hd] at hsplit
      refine ⟨(name.toList.reverse.takeWhile (· ≠ '.')).reverse, ?_⟩
      have := congrArg List.reverse hsplit
      rw [List.reverse_reverse, List.reverse_append, List.reverse_cons] at this
      simpa using this.symm

/-- The names removed along with an archive belong to the same guest and the same time. -/
theorem parseArchiveFileName_candidate (h : parseArchiveFileName name = some a)
    (hc : c ∈ [name, name ++ ".notes", name ++ ".log", stem name ++ ".notes",
      stem name ++ ".log"]) :
    parseArchiveFileName c = some { a with fileName := c } := by
  obtain ⟨start, rest, hname, hdot, hloc⟩ := parseArchiveFileName_local h
  have hstem : ∃ u, (stem name).toList = start ++ u := by
    by_cases hmem : '.' ∈ name.toList
    · obtain ⟨ext, hext⟩ := stem_toList hmem
      rw [hname] at hext
      rcases List.append_eq_append_iff.mp hext.symm with ⟨u, hstart, hrest⟩ | ⟨u, hu, -⟩
      · cases u with
        | nil => exact ⟨[], by simpa using hstart.symm⟩
        | cons x u =>
            obtain ⟨rfl, -⟩ : '.' = x ∧ _ := by simpa using hrest
            exact absurd (hstart ▸ List.mem_append_right _ List.mem_cons_self) hdot
      · exact ⟨u, hu⟩
    · exact ⟨rest, by rw [stem, if_neg hmem, hname]⟩
  obtain ⟨u, hu⟩ := hstem
  simp only [List.mem_cons, List.not_mem_nil, or_false] at hc
  rcases hc with rfl | rfl | rfl | rfl | rfl
  · exact hloc _ _ hname
  · exact hloc _ (rest ++ _) (by rw [String.toList_append, hname, List.append_assoc])
  · exact hloc _ (rest ++ _) (by rw [String.toList_append, hname, List.append_assoc])
  · exact hloc _ (u ++ _) (by rw [String.toList_append, hu, List.append_assoc])
  · exact hloc _ (u ++ _) (by rw [String.toList_append, hu, List.append_assoc])

theorem plain_of_parse (h : parseArchiveFileName c = some a) : Plain c := by
  refine ⟨?_, ?_, ?_⟩
  · rintro rfl
    cases h
  · rintro rfl
    cases h
  · rintro rfl
    cases h

end Names

end PmxAgents.Backup
