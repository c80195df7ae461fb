import Mathlib.Data.List.Infix
import PmxAgents.HardwareInstaller.KernelCmdline
import PmxAgents.Lib.RoseTree
import PmxAgents.Lib.Runs
import PmxAgents.Lib.ScanLines
import PmxAgents.Lib.Text

/-!
# Kernel options for the boot

`iommu.Enable` and `sriov.EnablePF` put tokens into the boot defaults and then run `update-grub`,
which makes the boot configuration from them. Whether it is run depends on whether the call changed
the file. A call that changed the file and whose `update-grub` failed is reported as an error; the
next call finds the tokens in place, does not run `update-grub` and returns with success. A file
without the line gets no tokens, and the calls succeed as well.

## Implementation notes

The file of the boot defaults is replaced as a whole or not at all. What the host gives to a call
(the processor, whether a file can be read or written, how `update-grub` ends) is part of the call.
-/

namespace PmxAgents.HardwareInstaller

open Lib Lib.Text

/-! ## The tokens -/

inductive Vendor where
  | intel
  | amd
  deriving DecidableEq, Repr

/-- The vendor that the text names; `none` if it cannot be read or names none. -/
def detectVendor (cpuInfo : Option String) : Option Vendor :=
  match cpuInfo with
  | none => none
  | some raw =>
      let text := (Casing.toLower raw).toList
      if "genuineintel".toList <:+: text then some .intel
      else if "authenticamd".toList <:+: text then some .amd
      else none

def Vendor.tokens : Vendor → List String
  | .intel => ["intel_iommu=on", "iommu=pt"]
  | .amd => ["amd_iommu=on", "iommu=pt"]

/-! ## The file -/

/-- What reading and merging the lines of the file comes to. -/
inductive Merged (ε : Type) where
  | lines (ls : List (List Char)) (updated : Bool)
  | refused (e : ε)
  | panicked

/-- The loop over the lines. Only lines with the key are merged. -/
def mergeLines {ε : Type} (merge : List Char → Merge ε) : List (List Char) → Merged ε
  | [] => .lines [] false
  | line :: rest =>
      if cmdlineKey <+: line then
        match merge line with
        | .refused e => .refused e
        | .panicked => .panicked
        | .returned next changed =>
            match mergeLines merge rest with
            | .lines ls updated =>
                .lines ((if changed then next else line) :: ls) (changed || updated)
            | other => other
      else
        match mergeLines merge rest with
        | .lines ls updated => .lines (line :: ls) updated
        | other => other

inductive BootError where
  | vendorUnknown
  | cpuInfo
  | openGrub
  | unsupportedLine
  | readGrub
  | writeGrub
  | updateGrub
  | invalidDriver (raw : String)
  | maxVFs
  | modprobe
  deriving DecidableEq, Repr

/-- How `ensureGrubTokens` ends: with the new text of the file if it was changed. -/
inductive Ensured where
  | unchanged
  | changed (text : List Char)
  | failed (e : BootError)
  | panicked

def joinLines (ls : List (List Char)) : List Char := ['\n'].intercalate ls ++ ['\n']

/-- The file is read, merged and, if a line changed, replaced. -/
def ensureGrubTokens {ε : Type} (merge : List Char → Merge ε) (readable writable : Bool)
    (text : List Char) : Ensured :=
  if readable = false then .failed .openGrub
  else
    let scan := Scanner.scan Scanner.utf8Lines text
    match mergeLines merge scan.tokens with
    | .refused _ => .failed .unsupportedLine
    | .panicked => .panicked
    | .lines ls updated =>
        if scan.tooLong then .failed .readGrub
        else if updated = false then .unchanged
        else if writable = false then .failed .writeGrub
        else .changed (joinLines ls)

/-! ## Calls -/

/-- What the host gives to a call: the description of the processor, whether the files can be read
and written, and whether `update-grub` completes. -/
structure World where
  cpuInfo : Option String
  readable : Bool
  writable : Bool
  updateGrub : Bool
  modprobeReadable : Bool
  modprobeWritable : Bool

structure EnableRequest where
  driver : String
  maxVFs : ℤ
  count : ℤ

inductive BootCall where
  | enable (world : World)
  | enablePF (world : World) (req : EnableRequest)

/-- The boot defaults, whether `update-grub` has completed since they were last changed, and the
options of the driver. -/
structure BootState where
  grub : List Char
  current : Bool
  modprobe : Option String

inductive Answer where
  | enabled (vendor : Vendor) (changed : Bool)
  | enabledPF (grubChanged driverChanged : Bool)
  | failed (e : BootError)
  | panicked
  deriving DecidableEq, Repr

def Answer.isSuccess : Answer → Bool
  | .enabled _ _ => true
  | .enabledPF _ _ => true
  | _ => false

/-- The part that both calls share: the tokens, and `update-grub` if the file was changed. -/
def updateBoot (ensured : Ensured) (updateGrub : Bool) (s : BootState) :
    BootState × Except Answer Bool :=
  match ensured with
  | .unchanged => (s, .ok false)
  | .failed e => (s, .error (.failed e))
  | .panicked => (s, .error .panicked)
  | .changed text =>
      if updateGrub then ({ s with grub := text, current := true }, .ok true)
      else ({ s with grub := text, current := false }, .error (.failed .updateGrub))

def Iommu.enable (world : World) (s : BootState) : BootState × Answer :=
  match detectVendor world.cpuInfo with
  | none => (s, .failed .vendorUnknown)
  | some vendor =>
      match updateBoot (ensureGrubTokens (Iommu.mergeKernelCmdline · vendor.tokens)
          world.readable world.writable s.grub) world.updateGrub s with
      | (s', .error answer) => (s', answer)
      | (s', .ok changed) => (s', .enabled vendor changed)

def safeDriver (driver : String) : Bool :=
  driver ≠ "" && driver.toList.all fun c => c.isAlphanum || c == '.' || c == '_' || c == '-'

def writeIfChanged (world : World) (old : Option String) (content : String) :
    Except BootError (Option String × Bool) :=
  if world.modprobeReadable = false then .error .modprobe
  else if old = some content then .ok (old, false)
  else if world.modprobeWritable then .ok (some content, true)
  else .error .modprobe

/-- The driver file, after the boot part. -/
def configureDriver (world : World) (driver : String) (maxVFs : ℤ) (grubChanged : Bool)
    (s : BootState) : BootState × Answer :=
  match writeIfChanged world s.modprobe
      ("options " ++ driver ++ " max_vfs=" ++ toString maxVFs ++ "\n") with
  | .error e => (s, .failed e)
  | .ok (modprobe, driverChanged) =>
      ({ s with modprobe }, .enabledPF grubChanged driverChanged)

def Sriov.enablePF (world : World) (req : EnableRequest) (s : BootState) : BootState × Answer :=
  let driver := trimSpace req.driver
  let maxVFs := if req.maxVFs ≤ 0 then req.count else req.maxVFs
  if safeDriver driver = false then (s, .failed (.invalidDriver req.driver))
  else if maxVFs ≤ 0 ∨ 256 < maxVFs then (s, .failed .maxVFs)
  else if world.cpuInfo = none then (s, .failed .cpuInfo)
  else
    match detectVendor world.cpuInfo with
    | none => (s, .failed .vendorUnknown)
    | some vendor =>
        match updateBoot (ensureGrubTokens (Sriov.mergeKernelCmdline · vendor.tokens)
            world.readable world.writable s.grub) world.updateGrub s with
        | (s', .error answer) => (s', answer)
        | (s', .ok grubChanged) => configureDriver world driver maxVFs grubChanged s'

def BootCall.run : BootCall → BootState → BootState × Answer
  | .enable world => Iommu.enable world
  | .enablePF world req => Sriov.enablePF world req

def bootStep (s : BootState) (call : BootCall) : Option BootState := some (call.run s).1

/-! ## What a success stands for -/

def BootCall.world : BootCall → World
  | .enable world => world
  | .enablePF world _ => world

/-- The tokens that a call requires. -/
def BootCall.tokens (call : BootCall) : List String :=
  match detectVendor call.world.cpuInfo with
  | none => []
  | some vendor => vendor.tokens

def grubLines (text : List Char) : List (List Char) := ScanLines.lines Scanner.utf8Lines text

/-- The file has a line of the command line. -/
def HasCmdline (text : List Char) : Prop := ∃ line ∈ grubLines text, cmdlineKey <+: line

/-- The file has a line of the command line with all of the tokens. -/
def Configured (tokens : List String) (text : List Char) : Prop :=
  ∃ line ∈ grubLines text, cmdlineKey <+: line ∧ ∀ token ∈ tokens, token ∈ tokensOf line

/-- A line of the command line lacks one of the tokens. -/
def Lacks (tokens : List String) (text : List Char) : Prop :=
  ∃ line ∈ grubLines text, cmdlineKey <+: line ∧ ∃ token ∈ tokens, token ∉ tokensOf line

/-- If the call succeeds, the tokens are in the file and the boot configuration was made from
it. -/
def BootCall.Keeps (s : BootState) (call : BootCall) : Prop :=
  (call.run s).2.isSuccess = true →
    Configured call.tokens (call.run s).1.grub ∧ (call.run s).1.current = true

/-- The file has the line, and the boot configuration is current or the call will change the
file. -/
def BootCall.Safe (s : BootState) (call : BootCall) : Prop :=
  HasCmdline s.grub ∧ (s.current = true ∨ Lacks call.tokens s.grub)

/-! ## Merging the lines -/

section Lines
variable {ε : Type} {merge : List Char → Merge ε} {tokens : List String}

theorem word_of_vendor (vendor : Vendor) : ∀ token ∈ vendor.tokens, Word token := by
  cases vendor <;> decide

/-- A line with the key and all of the tokens that is read again as it is written. -/
structure Complete (tokens : List String) (line : List Char) : Prop where
  key : cmdlineKey <+: line
  tokens : ∀ token ∈ tokens, token ∈ tokensOf line
  newline : '\n' ∉ line
  stays : Scanner.dropCR Scanner.utf8Lines line = line

/-- What a routine does with a line that has the key: it says whether a token was missing, and
returns a line with all of them. -/
def Completes (merge : List Char → Merge ε) (tokens : List String) : Prop :=
  ∀ line next changed, cmdlineKey <+: line → '\n' ∉ line → merge line = .returned next changed →
    Complete tokens (if changed then next else line) ∧
      (changed = true ↔ ∃ token ∈ tokens, token ∉ tokensOf line)

theorem notMem_intercalate {c : Char} {ws : List String} (hc : isSpace c = true) (hne : c ≠ ' ')
    (h : ∀ w ∈ ws, Word w) : c ∉ (" ".intercalate ws).toList := by
  have hnot : ∀ w, Word w → c ∉ w.toList := by
    intro w hw hmem
    rw [hw.not_space c hmem] at hc
    cases hc
  induction ws with
  | nil => exact List.not_mem_nil
  | cons w ws ih =>
      cases ws with
      | nil => exact hnot w (h w List.mem_cons_self)
      | cons v ws =>
          have hrest := ih fun u hu => h u (List.mem_cons_of_mem w hu)
          have hblank : (" " : String).toList = [' '] := rfl
          rw [intercalate_cons_cons, String.toList_append, String.toList_append, List.mem_append,
            List.mem_append, hblank, List.mem_singleton]
          exact not_or.mpr ⟨not_or.mpr ⟨hnot w (h w List.mem_cons_self), hne⟩, hrest⟩

/-- Between quotes, merging completes the line. -/
theorem completes_mergeTokens {quote : Char} {inner next : List Char} {changed : Bool}
    (hquote : quote = '"' ∨ quote = '\'') (hword : ∀ token ∈ tokens, Word token)
    (hnewline : '\n' ∉ cmdlineKey ++ quote :: (inner ++ [quote]))
    (h : (mergeTokens (cmdlineKey ++ quote :: (inner ++ [quote])) inner quote tokens : Merge ε) =
      .returned next changed) :
    Complete tokens (if changed then next else cmdlineKey ++ quote :: (inner ++ [quote])) ∧
      (changed = true ↔ ∃ token ∈ tokens,
        token ∉ tokensOf (cmdlineKey ++ quote :: (inner ++ [quote]))) := by
  have hcr : quote ≠ Scanner.utf8Lines.cr := by
    rcases hquote with rfl | rfl <;> decide
  have hstays : ∀ middle : List Char, Scanner.dropCR Scanner.utf8Lines
      (cmdlineKey ++ quote :: (middle ++ [quote])) =
        cmdlineKey ++ quote :: (middle ++ [quote]) := by
    intro middle
    refine Scanner.dropCR_of_getLast? _ ?_ hcr
    rw [← List.cons_append, ← List.append_assoc, List.getLast?_concat]
  rw [tokensOf_between]
  by_cases hall : ∀ token ∈ tokens, token ∈ words (String.ofList inner)
  · rw [mergeTokens_eq_line hall] at h
    obtain ⟨-, rfl⟩ := Merge.returned.inj h
    refine ⟨⟨List.prefix_append _ _, ?_, hnewline, hstays inner⟩, by simpa using hall⟩
    rw [if_neg Bool.false_ne_true, tokensOf_between]
    exact hall
  · rw [mergeTokens_eq_quoted hall] at h
    obtain ⟨rfl, rfl⟩ := Merge.returned.inj h
    obtain ⟨missing, heq, -, hmissing, -⟩ := Missing.add_spec (words (String.ofList inner)) tokens
    have hwords : ∀ token ∈ words (String.ofList inner) ++ missing, Word token := by
      intro token htoken
      rcases List.mem_append.mp htoken with hold | hnew
      · exact word_of_mem_words hold
      · exact hword token ((hmissing token).mp hnew).1
    rw [if_pos rfl, heq]
    refine ⟨⟨List.prefix_append _ _, ?_, ?_, hstays _⟩, by simpa using hall⟩
    · rw [tokensOf_quoted hwords]
      intro token htoken
      rw [List.mem_append, hmissing]
      by_cases hmem : token ∈ words (String.ofList inner)
      · exact .inl hmem
      · exact .inr ⟨htoken, hmem⟩
    · have hlf : quote ≠ '\n' := by
        rcases hquote with rfl | rfl <;> decide
      have hkey : '\n' ∉ cmdlineKey := by decide
      have htokens : '\n' ∉ (" ".intercalate (words (String.ofList inner) ++ missing)).toList :=
        notMem_intercalate (by decide) (by decide) hwords
      rw [quoted, List.mem_append, List.mem_cons, List.mem_append, List.mem_singleton]
      exact not_or.mpr ⟨hkey, not_or.mpr ⟨hlf.symm, not_or.mpr ⟨htokens, hlf.symm⟩⟩⟩

theorem completes_iommu (hword : ∀ token ∈ tokens, Word token) :
    Completes (Iommu.mergeKernelCmdline · tokens) tokens := by
  intro line next changed hkey hnewline h
  obtain ⟨quote, inner, hquote, rfl⟩ := exists_between hkey (.inl h)
  exact completes_mergeTokens hquote hword hnewline ((iommu_between hquote).symm.trans h)

theorem completes_sriov (hword : ∀ token ∈ tokens, Word token) :
    Completes (Sriov.mergeKernelCmdline · tokens) tokens := by
  intro line next changed hkey hnewline h
  obtain ⟨quote, inner, hquote, rfl⟩ := exists_between hkey (.inr h)
  exact completes_mergeTokens hquote hword hnewline ((sriov_between hquote).symm.trans h)

/-- What the loop makes of one line. -/
def LineMerged (tokens : List String) (line line' : List Char) : Prop :=
  (cmdlineKey <+: line ∧ Complete tokens line') ∨ (¬ cmdlineKey <+: line ∧ line' = line)

/-- The loop keeps the other lines and completes those with the key; it reports whether one of
them lacked a token. -/
theorem mergeLines_spec (hcompletes : Completes merge tokens) {ls ls' : List (List Char)}
    {updated : Bool} (hnewline : ∀ line ∈ ls, '\n' ∉ line)
    (h : mergeLines merge ls = .lines ls' updated) :
    List.Forall₂ (LineMerged tokens) ls ls' ∧
      (updated = true ↔
        ∃ line ∈ ls, cmdlineKey <+: line ∧ ∃ token ∈ tokens, token ∉ tokensOf line) := by
  fun_induction mergeLines merge ls generalizing ls' updated with
  | case1 =>
      obtain ⟨rfl, rfl⟩ := Merged.lines.inj h
      exact ⟨.nil, by simp⟩
  | case4 line rest hkey next changed hmerge more flag hmore ih =>
      obtain ⟨hline, hrest⟩ := List.forall_mem_cons.mp hnewline
      obtain ⟨hcomplete, hchanged⟩ := hcompletes line next changed hkey hline hmerge
      obtain ⟨hforall, hflag⟩ := ih hrest hmore
      obtain ⟨rfl, rfl⟩ := Merged.lines.inj h
      refine ⟨.cons (.inl ⟨hkey, hcomplete⟩) hforall, ?_⟩
      rw [Bool.or_eq_true, hchanged, hflag, List.exists_mem_cons_iff]
      simp only [hkey, true_and]
  | case6 line rest hkey more flag hmore ih =>
      obtain ⟨hforall, hflag⟩ := ih (List.forall_mem_cons.mp hnewline).2 hmore
      obtain ⟨rfl, rfl⟩ := Merged.lines.inj h
      refine ⟨.cons (.inr ⟨hkey, rfl⟩) hforall, ?_⟩
      rw [hflag, List.exists_mem_cons_iff]
      simp only [hkey, false_and, false_or]
  | case2 => cases h
  | case3 => cases h
  | case5 line rest _ _ _ _ hother _ => exact absurd h (hother _ _)
  | case7 line rest _ hother _ => exact absurd h (hother _ _)

/-- Joined and read again, the lines are the same. -/
theorem grubLines_joinLines {ls : List (List Char)} (hne : ls ≠ [])
    (hnewline : ∀ line ∈ ls, '\n' ∉ line) :
    grubLines (joinLines ls) = ls.map (Scanner.dropCR Scanner.utf8Lines) := by
  have hjoin : joinLines ls = ScanLines.unlines Scanner.utf8Lines ls :=
    ScanLines.intercalate_append_newline (A := Scanner.utf8Lines) hne
  rw [hjoin, grubLines, ScanLines.lines_unlines hnewline]

theorem newline_notMem_of_merged {ls ls' : List (List Char)} (hnewline : ∀ line ∈ ls, '\n' ∉ line)
    (h : List.Forall₂ (LineMerged tokens) ls ls') : ∀ line ∈ ls', '\n' ∉ line := by
  intro line' hline'
  obtain ⟨line, hline, hmerged⟩ := RoseTree.exists_mem_of_forall₂ h.flip hline'
  rcases hmerged with ⟨-, hcomplete⟩ | ⟨-, rfl⟩
  · exact hcomplete.newline
  · exact hnewline _ hline

/-- The lines of a file that lacked a token are a file with all of them. -/
theorem configured_joinLines {text : List Char} {ls : List (List Char)}
    (hmerged : List.Forall₂ (LineMerged tokens) (grubLines text) ls) (hlacks : Lacks tokens text) :
    Configured tokens (joinLines ls) := by
  obtain ⟨line, hline, hkey, -⟩ := hlacks
  obtain ⟨line', hline', hcomplete | hother⟩ := RoseTree.exists_mem_of_forall₂ hmerged hline
  · refine ⟨line', ?_, hcomplete.2.key, hcomplete.2.tokens⟩
    rw [grubLines_joinLines (List.ne_nil_of_mem hline')
      (newline_notMem_of_merged (fun _ => ScanLines.newline_notMem) hmerged)]
    exact List.mem_map.mpr ⟨line', hline', hcomplete.2.stays⟩
  · exact absurd hkey hother.1

/-- A file that is left alone lacks none of the tokens; one that is changed lacked a token, and has
all of them afterwards. -/
def Ensured.Sound (tokens : List String) (text : List Char) : Ensured → Prop
  | .unchanged => ¬ Lacks tokens text
  | .changed text' => Lacks tokens text ∧ Configured tokens text'
  | _ => True

theorem sound_ensureGrubTokens (hcompletes : Completes merge tokens) (readable writable : Bool)
    (text : List Char) : (ensureGrubTokens merge readable writable text).Sound tokens text := by
  rw [ensureGrubTokens]
  by_cases hread : readable = false
  · rw [if_pos hread]
    trivial
  rw [if_neg hread]
  dsimp only
  cases hmerge : mergeLines merge (Scanner.scan Scanner.utf8Lines text).tokens with
  | refused e => trivial
  | panicked => trivial
  | lines ls updated =>
      dsimp only
      split_ifs with hlong hupdated hwrite
      · trivial
      · rw [ScanLines.tokens_scan (Bool.eq_false_of_not_eq_true hlong)] at hmerge
        obtain ⟨-, hiff⟩ := mergeLines_spec hcompletes (fun _ => ScanLines.newline_notMem) hmerge
        exact fun hlacks => absurd (hiff.mpr hlacks) (by rw [hupdated]; decide)
      · trivial
      · rw [ScanLines.tokens_scan (Bool.eq_false_of_not_eq_true hlong)] at hmerge
        obtain ⟨hmerged, hiff⟩ :=
          mergeLines_spec hcompletes (fun _ => ScanLines.newline_notMem) hmerge
        have hlacks : Lacks tokens text := hiff.mp (Bool.eq_true_of_not_eq_false hupdated)
        exact ⟨hlacks, configured_joinLines hmerged hlacks⟩

end Lines

/-! ## One call -/

theorem configured_iff_hasCmdline {tokens : List String} {text : List Char}
    (h : ¬ Lacks tokens text) : Configured tokens text ↔ HasCmdline text := by
  constructor
  · rintro ⟨line, hline, hkey, -⟩
    exact ⟨line, hline, hkey⟩
  · rintro ⟨line, hline, hkey⟩
    refine ⟨line, hline, hkey, fun token htoken => ?_⟩
    by_contra hnot
    exact h ⟨line, hline, hkey, token, htoken, hnot⟩

/-- The boot part of a call that goes on: what it has ensured is what was so before, or what the
call has changed. -/
theorem updateBoot_ok_iff {ε : Type} {merge : List Char → Merge ε} {tokens : List String}
    (hcompletes : Completes merge tokens) {readable writable updateGrub changed : Bool}
    {s s' : BootState}
    (h : updateBoot (ensureGrubTokens merge readable writable s.grub) updateGrub s =
      (s', .ok changed)) :
    Configured tokens s'.grub ∧ s'.current = true ↔
      HasCmdline s.grub ∧ (s.current = true ∨ Lacks tokens s.grub) := by
  have hsound := sound_ensureGrubTokens hcompletes readable writable s.grub
  cases hensure : ensureGrubTokens merge readable writable s.grub with
  | failed e =>
      rw [hensure] at h
      cases h
  | panicked =>
      rw [hensure] at h
      cases h
  | unchanged =>
      rw [hensure] at h hsound
      obtain ⟨rfl, -⟩ := Prod.mk.inj h
      rw [configured_iff_hasCmdline hsound, or_iff_left hsound]
  | changed text =>
      rw [hensure] at hsound
      obtain ⟨hlacks, hconfigured⟩ := hsound
      have ⟨line, hline, hkey, _⟩ := hlacks
      rw [hensure, updateBoot] at h
      by_cases hupdate : updateGrub = true
      · rw [if_pos hupdate] at h
        obtain ⟨rfl, -⟩ := Prod.mk.inj h
        exact iff_of_true ⟨hconfigured, rfl⟩ ⟨⟨line, hline, hkey⟩, .inr hlacks⟩
      · rw [if_neg hupdate] at h
        cases h

/-- The boot part does not go on with a success in its hands. -/
theorem updateBoot_error_isSuccess {ensured : Ensured} {updateGrub : Bool} {s s' : BootState}
    {answer : Answer} (h : updateBoot ensured updateGrub s = (s', .error answer)) :
    answer.isSuccess = false := by
  cases ensured with
  | unchanged => cases h
  | failed e =>
      obtain rfl := Except.error.inj (Prod.mk.inj h).2
      rfl
  | panicked =>
      obtain rfl := Except.error.inj (Prod.mk.inj h).2
      rfl
  | changed text =>
      rw [updateBoot] at h
      split_ifs at h
      · cases h
      · obtain rfl := Except.error.inj (Prod.mk.inj h).2
        rfl

/-- While `update-grub` completes, the boot part keeps a file with the line and a configuration
made from it. -/
theorem updateBoot_keeps {ε : Type} {merge : List Char → Merge ε} {tokens : List String}
    (hcompletes : Completes merge tokens) {readable writable : Bool} {s : BootState}
    (hline : HasCmdline s.grub) (hcurrent : s.current = true) :
    HasCmdline (updateBoot (ensureGrubTokens merge readable writable s.grub) true s).1.grub ∧
      (updateBoot (ensureGrubTokens merge readable writable s.grub) true s).1.current = true := by
  have hsound := sound_ensureGrubTokens hcompletes readable writable s.grub
  cases hensure : ensureGrubTokens merge readable writable s.grub with
  | failed e => exact ⟨hline, hcurrent⟩
  | panicked => exact ⟨hline, hcurrent⟩
  | unchanged => exact ⟨hline, hcurrent⟩
  | changed text =>
      rw [hensure] at hsound
      obtain ⟨-, line, hmem, hkey, -⟩ := hsound
      exact ⟨⟨line, hmem, hkey⟩, rfl⟩

theorem configureDriver_boot (world : World) (driver : String) (maxVFs : ℤ) (grubChanged : Bool)
    (s : BootState) :
    (configureDriver world driver maxVFs grubChanged s).1.grub = s.grub ∧
      (configureDriver world driver maxVFs grubChanged s).1.current = s.current := by
  rw [configureDriver]
  split <;> exact ⟨rfl, rfl⟩

/-- What a call can do: it is refused at once, or its boot part is all that it does to the boot
defaults, and it succeeds only if that part does. -/
theorem BootCall.run_cases (call : BootCall) (s : BootState) :
    ((call.run s).1 = s ∧ (call.run s).2.isSuccess = false) ∨
      ∃ (ε : Type) (merge : List Char → Merge ε) (boot : BootState × Except Answer Bool),
        Completes merge call.tokens ∧
        updateBoot (ensureGrubTokens merge call.world.readable call.world.writable s.grub)
          call.world.updateGrub s = boot ∧
        (call.run s).1.grub = boot.1.grub ∧ (call.run s).1.current = boot.1.current ∧
        ((call.run s).2.isSuccess = true → ∃ changed, boot.2 = .ok changed) := by
  cases call with
  | enable world =>
      rw [BootCall.run, Iommu.enable, BootCall.tokens, BootCall.world]
      cases hvendor : detectVendor world.cpuInfo with
      | none => exact .inl ⟨rfl, rfl⟩
      | some vendor =>
          refine .inr ⟨_, _, _, completes_iommu (word_of_vendor vendor), rfl, ?_⟩
          dsimp only
          cases hboot : updateBoot (ensureGrubTokens (Iommu.mergeKernelCmdline · vendor.tokens)
              world.readable world.writable s.grub) world.updateGrub s with
          | mk s' outcome =>
              cases outcome with
              | ok changed => exact ⟨rfl, rfl, fun _ => ⟨changed, rfl⟩⟩
              | error answer =>
                  refine ⟨rfl, rfl, fun h => ?_⟩
                  cases h.symm.trans (updateBoot_error_isSuccess hboot)
  | enablePF world req =>
      rw [BootCall.run, Sriov.enablePF, BootCall.tokens, BootCall.world]
      by_cases hdriver : safeDriver (trimSpace req.driver) = false
      · rw [if_pos hdriver]
        exact .inl ⟨rfl, rfl⟩
      by_cases hcount : (if req.maxVFs ≤ 0 then req.count else req.maxVFs) ≤ 0 ∨
          256 < (if req.maxVFs ≤ 0 then req.count else req.maxVFs)
      · rw [if_neg hdriver, if_pos hcount]
        exact .inl ⟨rfl, rfl⟩
      by_cases hcpu : world.cpuInfo = none
      · rw [if_neg hdriver, if_neg hcount, if_pos hcpu]
        exact .inl ⟨rfl, rfl⟩
      rw [if_neg hdriver, if_neg hcount, if_neg hcpu]
      cases hvendor : detectVendor world.cpuInfo with
      | none => exact .inl ⟨rfl, rfl⟩
      | some vendor =>
          refine .inr ⟨_, _, _, completes_sriov (word_of_vendor vendor), rfl, ?_⟩
          dsimp only
          cases hboot : updateBoot (ensureGrubTokens (Sriov.mergeKernelCmdline · vendor.tokens)
              world.readable world.writable s.grub) world.updateGrub s with
          | mk s' outcome =>
              cases outcome with
              | ok changed =>
                  obtain ⟨hgrub, hcurrent⟩ := configureDriver_boot world (trimSpace req.driver)
                    (if req.maxVFs ≤ 0 then req.count else req.maxVFs) changed s'
                  exact ⟨hgrub, hcurrent, fun _ => ⟨changed, rfl⟩⟩
              | error answer =>
                  refine ⟨rfl, rfl, fun h => ?_⟩
                  cases h.symm.trans (updateBoot_error_isSuccess hboot)

/-- A call keeps the guarantee exactly if it fails or was made where it is safe. -/
theorem BootCall.keeps_iff (s : BootState) (call : BootCall) :
    call.Keeps s ↔ ((call.run s).2.isSuccess = true → call.Safe s) := by
  refine forall_congr' fun hsuccess => ?_
  rcases call.run_cases s with ⟨-, hfails⟩ |
    ⟨ε, merge, boot, hcompletes, hboot, hgrub, hcurrent, hok⟩
  · cases hsuccess.symm.trans hfails
  · obtain ⟨changed, hchanged⟩ := hok hsuccess
    have hpair : boot = (boot.1, .ok changed) := Prod.ext rfl hchanged
    rw [hgrub, hcurrent]
    exact updateBoot_ok_iff hcompletes (hboot.trans hpair)

/-! ## Runs -/

/-- In every run, from every state of the host: after each call that succeeds the tokens are in the
file and the boot configuration was made from it, exactly if each such call was made where the file
has the line, and where the configuration was current or a token was lacking. -/
theorem boot_current_iff (s : BootState) (calls : List BootCall) :
    Runs.Admits bootStep BootCall.Keeps s calls ↔
      Runs.Admits bootStep (fun s call => (call.run s).2.isSuccess = true → call.Safe s) s calls :=
  Runs.admits_congr BootCall.keeps_iff

/-- An Intel host on which everything but `update-grub` works. -/
def intelWorld (updateGrub : Bool) : World :=
  { cpuInfo := some "vendor_id : GenuineIntel", readable := true, writable := true, updateGrub,
    modprobeReadable := true, modprobeWritable := true }

/-- After a failed `update-grub` the next call succeeds without running it. -/
theorem second_enable_not_current :
    ¬ Runs.Admits bootStep BootCall.Keeps
      { grub := "GRUB_CMDLINE_LINUX_DEFAULT=\"quiet\"\n".toList, current := true, modprobe := none }
      [.enable (intelWorld false), .enable (intelWorld true)] := by
  rintro ⟨-, hnext⟩
  obtain ⟨hkeeps, -⟩ := hnext _ rfl
  have hcurrent := (hkeeps (by decide)).2
  revert hcurrent
  decide

/-- As long as `update-grub` completes, every call on a file with the line keeps the guarantee. -/
theorem admits_keeps_of_updateGrub {s : BootState} {calls : List BootCall}
    (hline : HasCmdline s.grub) (hcurrent : s.current = true)
    (hupdate : ∀ call ∈ calls, call.world.updateGrub = true) :
    Runs.Admits bootStep BootCall.Keeps s calls := by
  have hstep : ∀ (s : BootState) (call : BootCall) (t : BootState),
      HasCmdline s.grub ∧ s.current = true → call.world.updateGrub = true →
      bootStep s call = some t → HasCmdline t.grub ∧ t.current = true := by
    intro s call t hs hcall ht
    obtain rfl := Option.some.inj ht
    rcases call.run_cases s with ⟨hsame, -⟩ | ⟨ε, merge, boot, hcompletes, hboot, hgrub, hnow, -⟩
    · rw [hsame]
      exact hs
    · rw [hgrub, hnow, ← hboot, hcall]
      exact updateBoot_keeps hcompletes hs.1 hs.2
  have hkeeps : ∀ (s : BootState) (call : BootCall), HasCmdline s.grub ∧ s.current = true →
      call.world.updateGrub = true → call.Keeps s :=
    fun s call hs _ => (call.keeps_iff s).mpr fun _ => ⟨hs.1, .inl hs.2⟩
  exact Runs.admits_of_invariant hstep hkeeps ⟨hline, hcurrent⟩ (Runs.admits_of_forall hupdate)

theorem second_enable_current :
    Runs.Admits bootStep BootCall.Keeps
      { grub := "GRUB_CMDLINE_LINUX_DEFAULT=\"quiet\"\n".toList, current := true, modprobe := none }
      [.enable (intelWorld true), .enable (intelWorld true)] :=
  admits_keeps_of_updateGrub (by unfold HasCmdline; decide) rfl
    (by simp [BootCall.world, intelWorld])

end PmxAgents.HardwareInstaller
