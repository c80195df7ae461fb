import Mathlib.Logic.Function.Basic
import PmxAgents.Lib.Missing
import PmxAgents.Lib.ScanLines
import PmxAgents.Lib.Sections
import PmxAgents.Lib.Text

/-!
# Devices of a container

`gpu.AttachLXC` adds the lines of a graphics card to the configuration of a container. It looks for
each line in the whole file and appends those that it does not find to the end. The file has a
current section and, after it, one section for each snapshot. With snapshots, the end of the file is
the last of them.

## Implementation notes

The files that are written by the host have no carriage returns, so that a line is what stands
between two line ends. A line in brackets is the header of a section.
-/

namespace PmxAgents.HardwareInstaller.Gpu

open Lib Lib.Text

abbrev Line := List Char

inductive GpuType where
  | nvidia
  | intel
  | amd
  deriving DecidableEq, Repr

def gpuTypeOf (raw : String) : Option GpuType :=
  match Casing.toLower (trimSpace raw) with
  | "" => some .nvidia
  | "nvidia" => some .nvidia
  | "intel" => some .intel
  | "amd" => some .amd
  | _ => none

def lxcLinesForType : GpuType → List Line
  | .nvidia =>
      ["lxc.cgroup2.devices.allow: c 195:* rwm".toList,
        "lxc.cgroup2.devices.allow: c 511:* rwm".toList,
        "lxc.mount.entry: /dev/nvidia0 dev/nvidia0 none bind,optional,create=file 0 0".toList,
        "lxc.mount.entry: /dev/nvidiactl dev/nvidiactl none bind,optional,create=file 0 0".toList,
        "lxc.mount.entry: /dev/nvidia-uvm dev/nvidia-uvm none bind,optional,create=file 0 0".toList]
  | _ =>
      ["lxc.cgroup2.devices.allow: c 226:* rwm".toList,
        "lxc.mount.entry: /dev/dri dev/dri none bind,optional,create=dir 0 0".toList]

structure AttachLXCRequest where
  vmid : ℤ
  type : String

inductive AttachError where
  | vmid
  | type
  | read (vmid : ℤ)
  | write (vmid : ℤ)
  deriving DecidableEq, Repr

/-- The configurations by the number of the container, where there is one that can be read. -/
abbrev ConfigDir := ℤ → Option (List Char)

def readLines (text : List Char) : Option (List Line) :=
  let scan := Scanner.scan Scanner.utf8Lines text
  if scan.tooLong then none else some scan.tokens

/-- What `writeLinesAtomic` writes. -/
def payload (ls : List Line) : List Char :=
  let joined := ['\n'].intercalate ls
  if joined.getLast? = some '\n' then joined else joined ++ ['\n']

/-- A call, with whether the file can be replaced: the configurations after it, and whether it
changed one. -/
def attachLXC (dir : ConfigDir) (writable : Bool) (req : AttachLXCRequest) :
    ConfigDir × Except AttachError Bool :=
  if req.vmid ≤ 0 then (dir, .error .vmid)
  else
    match gpuTypeOf req.type with
    | none => (dir, .error .type)
    | some gpuType =>
        match (dir req.vmid).bind readLines with
        | none => (dir, .error (.read req.vmid))
        | some ls =>
            let merged := Missing.add ls (lxcLinesForType gpuType)
            if merged.2 = false then (dir, .ok false)
            else if writable = false then (dir, .error (.write req.vmid))
            else (Function.update dir req.vmid (some (payload merged.1)), .ok true)

/-! ## Sections of a configuration -/

/-- A line in brackets, with blanks after it or not. -/
def isHeader (line : Line) : Bool :=
  line.head? = some '[' && (trim line).getLast? = some ']'

/-- The current section, and the section of each snapshot. -/
def sections (text : List Char) : Sections Line :=
  Sections.split isHeader (ScanLines.lines Scanner.utf8Lines text)

/-- A configuration as the host writes it. -/
structure ConfigFile where
  text : List Char
  noCR : '\r' ∉ text

def requiredLines (req : AttachLXCRequest) : List Line :=
  match gpuTypeOf req.type with
  | none => []
  | some gpuType => lxcLinesForType gpuType

/-- The device is attached: its lines are in the current section, which has kept the others, and
the snapshots are as they were. -/
structure Attached (required : List Line) (before after : Sections Line) : Prop where
  required : ∀ line ∈ required, line ∈ after.first
  current : before.first.Sublist after.first
  snapshots : after.later = before.later

/-- What a successful call is to leave behind: the device is attached, and a second call changes
nothing. -/
def AttachesOnce (file : ConfigFile) (req : AttachLXCRequest) (dir' : ConfigDir) : Prop :=
  (∃ text', dir' req.vmid = some text' ∧
    Attached (requiredLines req) (sections file.text) (sections text')) ∧
  ∀ writable, attachLXC dir' writable req = (dir', .ok false)

/-! ## Lines that are written and read again -/

/-- A line that is read again as it is written. -/
structure Plain (line : Line) : Prop where
  newline : '\n' ∉ line
  cr : '\r' ∉ line
  fits : Scanner.Fits Scanner.utf8Lines line

/-- The lines of the devices are plain, not empty and no headers. -/
theorem lxcLinesForType_plain (gpuType : GpuType) :
    ∀ line ∈ lxcLinesForType gpuType, Plain line ∧ line ≠ [] ∧ isHeader line = false := by
  have hlines : ∀ line ∈ lxcLinesForType gpuType, '\n' ∉ line ∧ '\r' ∉ line ∧
      Scanner.Fits Scanner.utf8Lines line ∧ line ≠ [] ∧ isHeader line = false := by
    cases gpuType <;> decide +kernel
  intro line hline
  obtain ⟨hnewline, hcr, hfits, hne, hheader⟩ := hlines line hline
  exact ⟨⟨hnewline, hcr, hfits⟩, hne, hheader⟩

theorem readLines_eq_some {file : ConfigFile} {ls : List Line} (h : readLines file.text = some ls) :
    ls = ScanLines.lines Scanner.utf8Lines file.text ∧ ∀ line ∈ ls, Plain line := by
  rw [readLines] at h
  by_cases hlong : (Scanner.scan Scanner.utf8Lines file.text).tooLong = true
  · rw [if_pos hlong] at h
    cases h
  · rw [if_neg hlong] at h
    obtain rfl := Option.some.inj h
    have htokens := ScanLines.tokens_scan (eq_false_of_ne_true hlong)
    refine ⟨htokens, fun line hline => ?_⟩
    have hfits := ScanLines.fits_of_mem_scan hline
    rw [htokens] at hline
    exact ⟨ScanLines.newline_notMem hline,
      fun hcr => file.noCR (ScanLines.mem_of_mem_lines hline hcr), hfits⟩

section Written
variable {ls missing : List Line}

theorem map_dropCR (h : ∀ line ∈ ls, Plain line) :
    ls.map (Scanner.dropCR Scanner.utf8Lines) = ls := by
  rw [List.map_congr_left fun line hline => ScanLines.dropCR_of_notMem (h line hline).cr]
  exact List.map_id' ls

theorem readLines_unlines (h : ∀ line ∈ ls, Plain line) :
    readLines (ScanLines.unlines Scanner.utf8Lines ls) = some ls := by
  rw [readLines, ScanLines.scan_unlines (fun line hline => (h line hline).newline)
    fun line hline => (h line hline).fits]
  exact congrArg some (map_dropCR h)

theorem sections_unlines (h : ∀ line ∈ ls, Plain line) :
    sections (ScanLines.unlines Scanner.utf8Lines ls) = Sections.split isHeader ls := by
  rw [sections, ScanLines.lines_unlines fun line hline => (h line hline).newline, map_dropCR h]

/-- A last line that is not empty gets its line end. -/
theorem payload_concat {line : Line} (hne : line ≠ []) (hnewline : '\n' ∉ line) :
    payload (ls ++ [line]) = ScanLines.unlines Scanner.utf8Lines (ls ++ [line]) := by
  have hunlines := ScanLines.intercalate_append_newline (A := Scanner.utf8Lines)
    (List.concat_ne_nil line ls)
  have hjoined : ['\n'].intercalate (ls ++ [line]) =
      ScanLines.unlines Scanner.utf8Lines ls ++ line := by
    refine List.append_cancel_right (hunlines.trans ?_)
    simp [ScanLines.unlines]
  have hlast : ¬ (['\n'].intercalate (ls ++ [line])).getLast? = some '\n' := by
    rw [hjoined, List.getLast?_append_of_ne_nil _ hne]
    exact fun h => hnewline (List.mem_of_getLast? h)
  rw [payload, if_neg hlast]
  exact hunlines

end Written

/-! ## A call -/

section Call
variable {dir dir' : ConfigDir} {writable changed : Bool} {req : AttachLXCRequest}
  {gpuType : GpuType} {ls : List Line}

/-- A call that finds all of the lines changes nothing. -/
theorem attachLXC_of_mem (hvmid : 0 < req.vmid) (htype : gpuTypeOf req.type = some gpuType)
    (hread : (dir req.vmid).bind readLines = some ls)
    (hall : ∀ line ∈ lxcLinesForType gpuType, line ∈ ls) (writable : Bool) :
    attachLXC dir writable req = (dir, .ok false) := by
  rw [attachLXC, if_neg (Int.not_le.mpr hvmid), htype]
  dsimp only
  rw [hread]
  exact if_pos (Missing.add_eq_false_iff.mpr hall)

/-- A call that succeeds: it found all of the lines, or it wrote the file with those that were
missing. -/
theorem attachLXC_ok {text : List Char} (hfile : dir req.vmid = some text)
    (h : attachLXC dir writable req = (dir', .ok changed)) :
    ∃ gpuType ls, 0 < req.vmid ∧ gpuTypeOf req.type = some gpuType ∧ readLines text = some ls ∧
      (((∀ line ∈ lxcLinesForType gpuType, line ∈ ls) ∧ dir' = dir) ∨
        ((¬ ∀ line ∈ lxcLinesForType gpuType, line ∈ ls) ∧ dir' = Function.update dir req.vmid
          (some (payload (Missing.add ls (lxcLinesForType gpuType)).1)))) := by
  rw [attachLXC] at h
  by_cases hvmid : req.vmid ≤ 0
  · rw [if_pos hvmid] at h
    cases h
  rw [if_neg hvmid] at h
  cases htype : gpuTypeOf req.type with
  | none =>
      rw [htype] at h
      cases h
  | some gpuType =>
      rw [htype, hfile, Option.bind_some] at h
      dsimp only at h
      cases hread : readLines text with
      | none =>
          rw [hread] at h
          cases h
      | some ls =>
          rw [hread] at h
          dsimp only at h
          refine ⟨gpuType, ls, Int.not_le.mp hvmid, rfl, rfl, ?_⟩
          by_cases hall : ∀ line ∈ lxcLinesForType gpuType, line ∈ ls
          · rw [if_pos (Missing.add_eq_false_iff.mpr hall)] at h
            exact .inl ⟨hall, (Prod.mk.inj h).1.symm⟩
          · rw [if_neg (mt Missing.add_eq_false_iff.mp hall)] at h
            by_cases hwrite : writable = false
            · rw [if_pos hwrite] at h
              cases h
            · rw [if_neg hwrite] at h
              exact .inr ⟨hall, (Prod.mk.inj h).1.symm⟩

/-- The lines of a file that was written with what was missing. -/
theorem written_spec (hplain : ∀ line ∈ ls, Plain line)
    (hnot : ¬ ∀ line ∈ lxcLinesForType gpuType, line ∈ ls) :
    ∃ missing, (∀ line, line ∈ missing ↔ line ∈ lxcLinesForType gpuType ∧ line ∉ ls) ∧
      (∀ line ∈ ls ++ missing, Plain line) ∧
      payload (Missing.add ls (lxcLinesForType gpuType)).1 =
        ScanLines.unlines Scanner.utf8Lines (ls ++ missing) := by
  obtain ⟨missing, heq, -, hmissing, hflag⟩ := Missing.add_spec ls (lxcLinesForType gpuType)
  have hlines : ∀ line ∈ missing, Plain line ∧ line ≠ [] ∧ isHeader line = false :=
    fun line hline => lxcLinesForType_plain gpuType line ((hmissing line).mp hline).1
  have hne : missing ≠ [] := mt hflag.mpr (mt Missing.add_eq_false_iff.mp hnot)
  refine ⟨missing, hmissing, fun line hline => ?_, ?_⟩
  · rcases List.mem_append.mp hline with hold | hnew
    · exact hplain line hold
    · exact (hlines line hnew).1
  · obtain ⟨init, last, rfl⟩ := List.eq_nil_or_concat missing |>.resolve_left hne
    obtain ⟨hlast, hlastne, -⟩ := hlines last (by simp)
    rw [heq, List.concat_eq_append, ← List.append_assoc]
    exact payload_concat hlastne hlast.newline

/-- After every call that succeeds, for every file, with any snapshots, and every device: the
device is attached in the current section, nothing else has changed and a second call changes
nothing, exactly if the file had no snapshots or all of the lines were in its current section. -/
theorem attachLXC_attaches_iff (file : ConfigFile) (hfile : dir req.vmid = some file.text)
    (h : attachLXC dir writable req = (dir', .ok changed)) :
    AttachesOnce file req dir' ↔
      (sections file.text).later = [] ∨
        ∀ line ∈ requiredLines req, line ∈ (sections file.text).first := by
  obtain ⟨gpuType, ls, hvmid, htype, hread, hcases⟩ := attachLXC_ok hfile h
  obtain ⟨hlines, hplain⟩ := readLines_eq_some hread
  have hrequired : requiredLines req = lxcLinesForType gpuType := by
    rw [requiredLines, htype]
  have hsections : sections file.text = Sections.split isHeader ls := by
    rw [sections, ← hlines]
  rw [AttachesOnce, hrequired, hsections]
  rcases hcases with ⟨hall, rfl⟩ | ⟨hnot, rfl⟩
  · -- nothing was written
    have hbind : (dir' req.vmid).bind readLines = some ls := by
      rw [hfile, Option.bind_some, hread]
    constructor
    · rintro ⟨⟨text', htext', hattached⟩, -⟩
      obtain rfl := Option.some.inj (hfile.symm.trans htext')
      rw [hsections] at hattached
      exact .inr hattached.required
    · intro hcond
      refine ⟨⟨file.text, hfile, ?_⟩, attachLXC_of_mem hvmid htype hbind hall⟩
      rw [hsections]
      refine ⟨?_, List.Sublist.refl _, rfl⟩
      rcases hcond with hlater | hfirst
      · rw [Sections.first_split_of_later_eq_nil hlater]
        exact hall
      · exact hfirst
  · obtain ⟨missing, hmissing, hplain', hpayload⟩ := written_spec hplain hnot
    have hheader : ∀ line ∈ missing, isHeader line = false :=
      fun line hline => (lxcLinesForType_plain gpuType line ((hmissing line).mp hline).1).2.2
    have hall' : ∀ line ∈ lxcLinesForType gpuType, line ∈ ls ++ missing := by
      intro line hline
      rw [List.mem_append, hmissing]
      by_cases hmem : line ∈ ls
      · exact .inl hmem
      · exact .inr ⟨hline, hmem⟩
    rw [hpayload, Function.update_self]
    constructor
    · rintro ⟨⟨text', htext', hattached⟩, -⟩
      obtain rfl := Option.some.inj htext'
      rw [sections_unlines hplain'] at hattached
      by_cases hlater : (Sections.split isHeader ls).later = []
      · exact .inl hlater
      · -- the current section got none of the lines
        refine .inr fun line hline => ?_
        rw [← Sections.first_split_append_of_later_ne_nil missing hlater]
        exact hattached.required line hline
    · intro hcond
      have hlater : (Sections.split isHeader ls).later = [] :=
        hcond.resolve_right fun hfirst =>
          hnot fun line hline => Sections.mem_of_mem_first (hfirst line hline)
      have hbind : (Function.update dir req.vmid (some (ScanLines.unlines Scanner.utf8Lines
          (ls ++ missing))) req.vmid).bind readLines = some (ls ++ missing) := by
        rw [Function.update_self, Option.bind_some, readLines_unlines hplain']
      refine ⟨⟨_, rfl, ?_⟩, attachLXC_of_mem hvmid htype hbind hall'⟩
      rw [sections_unlines hplain', Sections.split_append_of_later_eq_nil hheader hlater]
      refine ⟨?_, List.sublist_append_left _ _, hlater.symm⟩
      rw [Sections.first_split_of_later_eq_nil hlater]
      exact hall'

end Call

theorem plainText_noCR : '\r' ∉ "arch: amd64\n".toList := by decide

theorem snapshotText_noCR : '\r' ∉ "arch: amd64\n[before]\narch: amd64\n".toList := by decide

/-- A container without snapshots. -/
def plainFile : ConfigFile := ⟨"arch: amd64\n".toList, plainText_noCR⟩

/-- A container with one snapshot. -/
def snapshotFile : ConfigFile :=
  ⟨"arch: amd64\n[before]\narch: amd64\n".toList, snapshotText_noCR⟩

def intelRequest : AttachLXCRequest := ⟨101, "Intel"⟩

theorem attachLXC_attaches_plain :
    AttachesOnce plainFile intelRequest
      (attachLXC (fun _ => some plainFile.text) true intelRequest).1 := by
  have hcall : attachLXC (fun _ => some plainFile.text) true intelRequest =
      ((attachLXC (fun _ => some plainFile.text) true intelRequest).1, .ok true) := rfl
  exact (attachLXC_attaches_iff plainFile rfl hcall).mpr (.inl (by decide))

/-- With a snapshot, the call succeeds and the device is not attached. -/
theorem snapshot_not_attached :
    (attachLXC (fun _ => some snapshotFile.text) true intelRequest).2 = .ok true ∧
      ¬ AttachesOnce snapshotFile intelRequest
        (attachLXC (fun _ => some snapshotFile.text) true intelRequest).1 := by
  refine ⟨rfl, ?_⟩
  rintro ⟨⟨text', htext', hattached⟩, -⟩
  obtain rfl := Option.some.inj htext'
  have hline := hattached.required "lxc.cgroup2.devices.allow: c 226:* rwm".toList (by decide)
  revert hline
  decide +kernel

end PmxAgents.HardwareInstaller.Gpu
