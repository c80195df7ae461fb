import PmxAgents.Lib.Checks
import PmxAgents.Lib.Scanner
import PmxAgents.Lib.Settings
import PmxAgents.Lib.Text
import PmxAgents.Security.SshHarden

/-!
# Audit of the SSH server

`ssh.audit` reads the main configuration and then the drop-ins into one map and compares the map
with the desired profile. The server reads the drop-ins where they are included, takes the first
value of a keyword, does not tell its case apart and leaves out what stands in `Match` blocks.

## Implementation notes

The agent may be unable to read a drop-in; it then goes on without it. A file is read up to its
first line that does not fit into the buffer.
-/

namespace PmxAgents.Security.Ssh

open Lib Lib.Text Lib.FileSystem Lib.KeySort Lib.Settings

/-! ## The audit -/

structure Drift where
  key : String
  expected : String
  actual : String
  deriving DecidableEq, Repr

abbrev Effective := AList fun _ : String => String

structure AuditResult where
  effective : Effective
  drift : List Drift

inductive OpenError where
  | notExist
  | other (text : String)

/-- The key and the value of a line. -/
def keyValue (line : List Char) : Option (String × String) :=
  let line := trim line
  if line = [] ∨ line.head? = some '#' then none
  else match fields line with
    | key :: word :: words =>
        some (String.ofList key, String.ofList ([' '].intercalate (word :: words)))
    | _ => none

def keyValues (content : List Char) : List (String × String) :=
  (Scanner.scan Scanner.utf8Lines content).tokens.filterMap keyValue

def fill (out : Effective) (settings : List (String × String)) : Effective :=
  settings.foldl (fun out e => out.insert e.1 e.2) out

/-- The map with what a file has, and whether the whole file was read. -/
def parseConfigFile (content : List Char) (out : Effective) : Effective × Bool :=
  (fill out (keyValues content), !(Scanner.scan Scanner.utf8Lines content).tooLong)

/-- The pattern finds names with a dot in front as well. -/
def globNames (d : DropIns) : List String :=
  (d.keys.filter fun name => ".conf".toList <:+ name.toList).insertionSort nameLe

def actual (effective : Effective) (key : String) : String :=
  Casing.toLower (trimSpace ((effective.lookup key).getD ""))

def driftOf (effective : Effective) : List Drift :=
  (sortByKey nameLe (desiredProfile.filter fun e => actual effective e.1 ≠ e.2)).map fun e =>
    ⟨e.1, e.2, actual effective e.1⟩

def parseMain : Except OpenError (List Char) → Except String Effective
  | .error .notExist => .ok ∅
  | .error (.other err) => .error err
  | .ok content =>
      if (parseConfigFile content ∅).2 then .ok (parseConfigFile content ∅).1
      else .error "bufio.Scanner: token too long"

def audit (main : Except OpenError (List Char)) (d : DropIns) (readable : String → Bool) :
    Except String AuditResult := do
  let effective ← parseMain main
  let effective := (globNames d).foldl
    (fun out name => if readable name then (parseConfigFile (text d name) out).1 else out) effective
  return ⟨effective, driftOf effective⟩

def AuditResult.Drifts (res : AuditResult) (key : String) : Prop :=
  ∃ drift ∈ res.drift, drift.key = key

/-! ## The server -/

section Server
variable {V : Type*} (sshd : Sshd V)

/-- A `Match` block ends with the file. -/
def globalPart (directives : List (String × String)) : List (String × String) :=
  directives.takeWhile fun e => lowerCase e.1 ≠ "match"

/-- The settings of some directives in their order that are in force for everybody. -/
def globalSettings (includes : String → List (String × String))
    (directives : List (String × String)) : List (String × String) :=
  (globalPart directives).flatMap fun e =>
    if lowerCase e.1 = "include" then includes e.2 else [(lowerCase e.1, e.2)]

/-- What the drop-ins set, in the order of their names. -/
def Sshd.globalOf (d : DropIns) : List (String × String) :=
  (confNames d).flatMap fun name => globalSettings sshd.nested (sshd.directives (text d name))

def Sshd.globalIncludes (d : DropIns) (arguments : String) : List (String × String) :=
  if arguments = dropInPattern then sshd.globalOf d else sshd.nested arguments

/-- The value of a keyword outside of all `Match` blocks; `unset` has those of keywords that are
not set. -/
def Sshd.globalValue (unset : String → V) (main : List Char) (d : DropIns) (key : String) : V :=
  match (globalSettings (sshd.globalIncludes d) (sshd.directives main)).lookup (lowerCase key) with
  | some v => sshd.reading (lowerCase key) v
  | none => unset (lowerCase key)

/-- The settings in the order of the server: those of the drop-ins, then those that the main
configuration has after the `Include`. -/
def Sshd.served (main : List Char) (d : DropIns) : List (String × String) :=
  sshd.globalOf d ++ globalSettings (sshd.globalIncludes d) (sshd.directives main).tail

/-- Some first value of the key is read as the desired one, or it is not set and that is what the
server does then. -/
def Sshd.FirstDesired (unset : String → V) (main : List Char) (d : DropIns) (e : String × String) :
    Prop :=
  (∃ v, FirstAt (sshd.served main d) (lowerCase e.1) v ∧
    sshd.reading (lowerCase e.1) v = sshd.reading (lowerCase e.1) e.2) ∨
  (∀ s ∈ sshd.served main d, s.1 ≠ lowerCase e.1) ∧
    unset (lowerCase e.1) = sshd.reading (lowerCase e.1) e.2

end Server

/-- The settings in the order of the audit. -/
def audited (main : List Char) (d : DropIns) (readable : String → Bool) : List (String × String) :=
  keyValues main ++ ((globNames d).filter readable).flatMap fun name => keyValues (text d name)

/-- The last value of the key in exactly this spelling is the desired one. -/
def LastDesired (main : List Char) (d : DropIns) (readable : String → Bool) (e : String × String) :
    Prop :=
  ∃ v, LastAt (audited main d readable) e.1 v ∧ Casing.toLower (trimSpace v) = e.2

/-- The lines of a key, kind by kind. `repeated`: the last line that the audit has and the first one
that the server has are two lines that say the same, or one line that both understand. `unseen`: the
server has lines that the audit has not, since they spell the key in another way or stand in a
drop-in that the agent cannot read, and they do not set the desired value. `matched`: the audit has
lines that the server has not, since they stand in `Match` blocks or in hidden drop-ins, and they
say what the server does without. `absent`: there is no line, and the server does something else
without. -/
structure Sshd.Settled {V : Type*} (sshd : Sshd V) (unset : String → V) (main : List Char)
    (d : DropIns) (readable : String → Bool) (e : String × String) : Prop where
  repeated : ∀ v w, LastAt (audited main d readable) e.1 v →
    FirstAt (sshd.served main d) (lowerCase e.1) w →
      (Casing.toLower (trimSpace v) = e.2 ↔
        sshd.reading (lowerCase e.1) w = sshd.reading (lowerCase e.1) e.2)
  unseen : ∀ w, (∀ s ∈ audited main d readable, s.1 ≠ e.1) →
    FirstAt (sshd.served main d) (lowerCase e.1) w →
      sshd.reading (lowerCase e.1) w ≠ sshd.reading (lowerCase e.1) e.2
  matched : ∀ v, LastAt (audited main d readable) e.1 v →
    (∀ s ∈ sshd.served main d, s.1 ≠ lowerCase e.1) →
      (Casing.toLower (trimSpace v) = e.2 ↔
        unset (lowerCase e.1) = sshd.reading (lowerCase e.1) e.2)
  absent : (∀ s ∈ audited main d readable, s.1 ≠ e.1) →
    (∀ s ∈ sshd.served main d, s.1 ≠ lowerCase e.1) →
      unset (lowerCase e.1) ≠ sshd.reading (lowerCase e.1) e.2

/-! ## What the audit reports -/

section Report
variable {d : DropIns} {readable : String → Bool} {main : List Char}

theorem fill_append (out : Effective) (l l' : List (String × String)) :
    fill out (l ++ l') = fill (fill out l) l' :=
  List.foldl_append

/-- The drop-ins are read one after the other into the map. -/
theorem foldl_parseConfigFile (names : List String) (out : Effective) :
    names.foldl (fun out name =>
        if readable name then (parseConfigFile (text d name) out).1 else out) out =
      fill out ((names.filter readable).flatMap fun name => keyValues (text d name)) := by
  induction names generalizing out with
  | nil => rfl
  | cons name names ih =>
      rw [List.foldl_cons, ih, List.filter_cons]
      split_ifs with hreadable
      · rw [List.flatMap_cons, fill_append]
        rfl
      · rfl

/-- The main configuration is read to its end if all of its lines fit into the buffer. -/
theorem parseMain_eq_ok_iff {effective : Effective} :
    parseMain (.ok main) = .ok effective ↔
      (∀ line ∈ main.splitOn '\n', Scanner.Fits Scanner.utf8Lines line) ∧
        effective = fill ∅ (keyValues main) := by
  have hfits : (Scanner.scan Scanner.utf8Lines main).tooLong = false ↔
      ∀ line ∈ main.splitOn '\n', Scanner.Fits Scanner.utf8Lines line :=
    Scanner.scan_tooLong_eq_false Scanner.utf8Lines main
  rw [← hfits, parseMain, parseConfigFile]
  cases (Scanner.scan Scanner.utf8Lines main).tooLong with
  | true => exact iff_of_false nofun fun h => nomatch h.1
  | false => exact ⟨fun h => ⟨rfl, (Except.ok.inj h).symm⟩, fun h => congrArg Except.ok h.2.symm⟩

theorem audit_eq_ok_iff {res : AuditResult} :
    audit (.ok main) d readable = .ok res ↔
      (∀ line ∈ main.splitOn '\n', Scanner.Fits Scanner.utf8Lines line) ∧
        res = ⟨fill ∅ (audited main d readable), driftOf (fill ∅ (audited main d readable))⟩ := by
  rw [audit, Checks.bind_eq_ok, audited, fill_append]
  constructor
  · rintro ⟨effective, hmain, hres⟩
    obtain ⟨hfits, rfl⟩ := parseMain_eq_ok_iff.mp hmain
    dsimp only at hres
    rw [foldl_parseConfigFile] at hres
    exact ⟨hfits, (Except.ok.inj hres).symm⟩
  · rintro ⟨hfits, rfl⟩
    refine ⟨_, parseMain_eq_ok_iff.mpr ⟨hfits, rfl⟩, ?_⟩
    dsimp only
    rw [foldl_parseConfigFile]
    rfl

theorem nodup_desiredProfile : (desiredProfile.map Prod.fst).Nodup := by decide

theorem expected_ne {e : String × String} (he : e ∈ desiredProfile) :
    Casing.toLower (trimSpace "") ≠ e.2 := by
  revert e
  decide

theorem drifts_iff {effective : Effective} {e : String × String} (he : e ∈ desiredProfile) :
    (AuditResult.mk effective (driftOf effective)).Drifts e.1 ↔ actual effective e.1 ≠ e.2 := by
  simp only [AuditResult.Drifts, driftOf, List.mem_map]
  constructor
  · rintro ⟨_, ⟨e', he', rfl⟩, hkey⟩
    rw [mem_sortByKey, List.mem_filter, decide_eq_true_iff] at he'
    obtain rfl := eq_of_key_eq nodup_desiredProfile he'.1 he hkey
    exact he'.2
  · intro hne
    refine ⟨_, ⟨e, ?_, rfl⟩, rfl⟩
    rw [mem_sortByKey, List.mem_filter, decide_eq_true_iff]
    exact ⟨he, hne⟩

/-- No drift is reported for a key exactly if the last value of the key is the desired one. -/
theorem not_drifts_iff {e : String × String} (he : e ∈ desiredProfile) :
    ¬ (AuditResult.mk (fill ∅ (audited main d readable))
        (driftOf (fill ∅ (audited main d readable)))).Drifts e.1 ↔
      LastDesired main d readable e := by
  rw [drifts_iff he, not_not, actual, fill, lookup_foldl_insert, AList.lookup_empty, Option.or_none,
    LastDesired]
  simp only [← firstAt_reverse_iff, ← lookup_eq_some_iff]
  cases hlookup : (audited main d readable).reverse.lookup e.1 with
  | none => exact iff_of_false (expected_ne he) (by rintro ⟨v, hv, -⟩; cases hv)
  | some v =>
      constructor
      · intro h
        exact ⟨v, rfl, h⟩
      · rintro ⟨v', hv', h⟩
        obtain rfl := Option.some.inj hv'
        exact h

end Report

/-! ## What the server takes -/

section Served
variable {V : Type*} {sshd : Sshd V} {unset : String → V} {main : List Char} {d : DropIns}

/-- The `Include` at the start puts the drop-ins before everything else. -/
theorem globalSettings_of_startsWithInclude (h : sshd.StartsWithInclude main) :
    globalSettings (sshd.globalIncludes d) (sshd.directives main) = sshd.served main d := by
  obtain ⟨keyword, hkeyword, hhead⟩ := h
  obtain ⟨rest, hrest⟩ := List.head?_eq_some_iff.mp hhead
  have hglobal : decide (lowerCase keyword ≠ "match") = true := by rw [hkeyword]; decide
  rw [Sshd.served, hrest, List.tail_cons, globalSettings, globalPart,
    List.takeWhile_cons, if_pos hglobal, List.flatMap_cons, if_pos hkeyword, Sshd.globalIncludes,
    if_pos rfl]
  rfl

theorem globalValue_eq_iff (h : sshd.StartsWithInclude main) {e : String × String} :
    sshd.globalValue unset main d e.1 = sshd.reading (lowerCase e.1) e.2 ↔
      sshd.FirstDesired unset main d e := by
  rw [Sshd.globalValue, globalSettings_of_startsWithInclude h, Sshd.FirstDesired]
  rcases exists_firstAt_or (sshd.served main d) (lowerCase e.1) with ⟨v, hv⟩ | hunset
  · rw [lookup_eq_some_iff.mpr hv]
    constructor
    · intro hvalue
      exact .inl ⟨v, hv, hvalue⟩
    · rintro (⟨v', hv', hvalue⟩ | ⟨hunset, -⟩)
      · exact (hv'.unique hv) ▸ hvalue
      · exact absurd rfl (hunset _ hv.mem)
  · rw [List.lookup_eq_none_iff.mpr fun s hs => bne_iff_ne.mpr (hunset s hs).symm]
    constructor
    · intro hvalue
      exact .inr ⟨hunset, hvalue⟩
    · rintro (⟨v, hv, -⟩ | ⟨-, hvalue⟩)
      · exact absurd rfl (hunset _ hv.mem)
      · exact hvalue

variable {readable : String → Bool} {e : String × String}

theorem lastDesired_iff {v : String} (hv : LastAt (audited main d readable) e.1 v) :
    LastDesired main d readable e ↔ Casing.toLower (trimSpace v) = e.2 := by
  constructor
  · rintro ⟨v', hv', h⟩
    exact hv'.unique hv ▸ h
  · exact fun h => ⟨v, hv, h⟩

theorem not_lastDesired (h : ∀ s ∈ audited main d readable, s.1 ≠ e.1) :
    ¬ LastDesired main d readable e :=
  fun ⟨_, hv, _⟩ => h _ hv.mem rfl

theorem firstDesired_iff {w : String} (hw : FirstAt (sshd.served main d) (lowerCase e.1) w) :
    sshd.FirstDesired unset main d e ↔
      sshd.reading (lowerCase e.1) w = sshd.reading (lowerCase e.1) e.2 := by
  constructor
  · rintro (⟨w', hw', h⟩ | ⟨h, -⟩)
    · exact hw'.unique hw ▸ h
    · exact absurd rfl (h _ hw.mem)
  · exact fun h => .inl ⟨w, hw, h⟩

theorem firstDesired_iff_unset (h : ∀ s ∈ sshd.served main d, s.1 ≠ lowerCase e.1) :
    sshd.FirstDesired unset main d e ↔
      unset (lowerCase e.1) = sshd.reading (lowerCase e.1) e.2 := by
  constructor
  · rintro (⟨w, hw, -⟩ | ⟨-, hunset⟩)
    · exact absurd rfl (h _ hw.mem)
    · exact hunset
  · exact fun hunset => .inr ⟨h, hunset⟩

/-- The two deciding lines say the same exactly if the lines of the key are settled. -/
theorem settled_iff : sshd.Settled unset main d readable e ↔
    (LastDesired main d readable e ↔ sshd.FirstDesired unset main d e) := by
  constructor
  · intro h
    rcases exists_lastAt_or (audited main d readable) e.1 with ⟨v, hv⟩ | hnone
    · rcases exists_firstAt_or (sshd.served main d) (lowerCase e.1) with ⟨w, hw⟩ | hunset
      · exact (lastDesired_iff hv).trans ((h.repeated v w hv hw).trans (firstDesired_iff hw).symm)
      · exact (lastDesired_iff hv).trans
          ((h.matched v hv hunset).trans (firstDesired_iff_unset hunset).symm)
    · refine iff_of_false (not_lastDesired hnone) ?_
      rcases exists_firstAt_or (sshd.served main d) (lowerCase e.1) with ⟨w, hw⟩ | hunset
      · exact mt (firstDesired_iff hw).mp (h.unseen w hnone hw)
      · exact mt (firstDesired_iff_unset hunset).mp (h.absent hnone hunset)
  · intro h
    constructor
    · exact fun v w hv hw => (lastDesired_iff hv).symm.trans (h.trans (firstDesired_iff hw))
    · exact fun w hnone hw hdesired =>
        not_lastDesired hnone (h.mpr ((firstDesired_iff hw).mpr hdesired))
    · exact fun v hv hunset =>
        (lastDesired_iff hv).symm.trans (h.trans (firstDesired_iff_unset hunset))
    · exact fun hnone hunset hdesired =>
        not_lastDesired hnone (h.mpr ((firstDesired_iff_unset hunset).mpr hdesired))

/-- The audit reports no drift for a key exactly where the server takes the desired value if and
only if the main configuration can be read to its end and the lines of the key are settled. -/
theorem audit_agrees_iff (sshd : Sshd V) (unset : String → V) (main : List Char) (d : DropIns)
    (readable : String → Bool) (hmain : sshd.StartsWithInclude main) (e : String × String)
    (he : e ∈ desiredProfile) :
    (∃ res, audit (.ok main) d readable = .ok res ∧
      (¬ res.Drifts e.1 ↔
        sshd.globalValue unset main d e.1 = sshd.reading (lowerCase e.1) e.2)) ↔
    (∀ line ∈ main.splitOn '\n', Scanner.Fits Scanner.utf8Lines line) ∧
      sshd.Settled unset main d readable e := by
  simp only [audit_eq_ok_iff, globalValue_eq_iff hmain, settled_iff]
  constructor
  · rintro ⟨res, ⟨hfits, rfl⟩, hiff⟩
    rw [not_drifts_iff he] at hiff
    exact ⟨hfits, hiff⟩
  · rintro ⟨hfits, hiff⟩
    refine ⟨_, ⟨hfits, rfl⟩, ?_⟩
    rw [not_drifts_iff he]
    exact hiff

end Served

/-! ## Two sets of drop-ins -/

/-- What the server does with keywords that are not set. -/
def unsetSshd (key : String) : String :=
  if key = "permitrootlogin" then "prohibit-password" else "yes"

theorem startsWithInclude_mainConfig : simpleSshd.StartsWithInclude mainConfig :=
  ⟨"include", by decide +kernel, by decide +kernel⟩

/-- The keyword is repeated, with another value and in another spelling between the first and the
last line. -/
def rootTwice : DropIns :=
  AList.insert "10-root.conf" "PermitRootLogin no\n".toList
    (AList.insert "20-site.conf" "permitrootlogin yes\nPermitRootLogin no\n".toList ∅)

theorem lastDesired_rootTwice :
    LastDesired mainConfig rootTwice (fun _ => true) ("PermitRootLogin", "no") := by
  refine ⟨"no", firstAt_reverse_iff.mp (lookup_eq_some_iff.mp ?_), by decide⟩
  decide +kernel

theorem firstDesired_rootTwice :
    simpleSshd.FirstDesired unsetSshd mainConfig rootTwice ("PermitRootLogin", "no") := by
  refine .inl ⟨"no", lookup_eq_some_iff.mp ?_, by decide⟩
  decide +kernel

theorem fits_mainConfig : ∀ line ∈ mainConfig.splitOn '\n', Scanner.Fits Scanner.utf8Lines line :=
  (Scanner.scan_tooLong_eq_false Scanner.utf8Lines mainConfig).mp (by decide +kernel)

theorem audit_agrees_rootTwice :
    simpleSshd.StartsWithInclude mainConfig ∧ ("PermitRootLogin", "no") ∈ desiredProfile ∧
    ∃ res, audit (.ok mainConfig) rootTwice (fun _ => true) = .ok res ∧
      (¬ res.Drifts "PermitRootLogin" ↔
        simpleSshd.globalValue unsetSshd mainConfig rootTwice "PermitRootLogin" =
          simpleSshd.reading (lowerCase "PermitRootLogin") "no") :=
  ⟨startsWithInclude_mainConfig, by decide,
    (audit_agrees_iff simpleSshd unsetSshd mainConfig rootTwice (fun _ => true)
      startsWithInclude_mainConfig ("PermitRootLogin", "no") (by decide)).mpr
      ⟨fits_mainConfig, settled_iff.mpr (iff_of_true lastDesired_rootTwice firstDesired_rootTwice)⟩⟩

/-- After the server was hardened with the drop-in of a cloud image present, the audit finds
nothing, and passwords are accepted. -/
theorem cloudInit_not_audited :
    simpleSshd.StartsWithInclude mainConfig ∧ ("PasswordAuthentication", "no") ∈ desiredProfile ∧
    ((audit (.ok mainConfig) (cloudInit.insert target desiredDropIn) fun _ => true).map
      AuditResult.drift) = .ok [] ∧
    simpleSshd.globalValue unsetSshd mainConfig (cloudInit.insert target desiredDropIn)
      "PasswordAuthentication" = "yes" ∧
    ¬ ∃ res, audit (.ok mainConfig) (cloudInit.insert target desiredDropIn)
        (fun _ => true) = .ok res ∧
      (¬ res.Drifts "PasswordAuthentication" ↔
        simpleSshd.globalValue unsetSshd mainConfig (cloudInit.insert target desiredDropIn)
          "PasswordAuthentication" =
            simpleSshd.reading (lowerCase "PasswordAuthentication") "no") := by
  have hdrift : ((audit (.ok mainConfig) (cloudInit.insert target desiredDropIn) fun _ => true).map
      AuditResult.drift) = .ok [] := by decide +kernel
  have hvalue : simpleSshd.globalValue unsetSshd mainConfig (cloudInit.insert target desiredDropIn)
      "PasswordAuthentication" = "yes" := by decide +kernel
  refine ⟨startsWithInclude_mainConfig, by decide, hdrift, hvalue, ?_⟩
  rintro ⟨res, hres, hiff⟩
  have hnone : res.drift = [] := by
    rw [hres] at hdrift
    exact Except.ok.inj hdrift
  have hdesired := hiff.mp (by rintro ⟨drift, hmem, -⟩; rw [hnone] at hmem; cases hmem)
  rw [hvalue] at hdesired
  exact absurd hdesired (by decide)

end PmxAgents.Security.Ssh
