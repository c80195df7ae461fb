import Mathlib.Data.List.Infix
import PmxAgents.Lib.Checks
import PmxAgents.Lib.Delimited

/-!
# The upgrades that apt plans

The updater asks `apt-get -s` what an upgrade would install and reads one package from
each line of the form `Inst name [installed] (candidate origins [arch])`. The bracket with
the installed version is absent for a package that is not installed yet; the updater asks
for such packages too. It takes the first bracket of the line for the installed version,
and where that one is absent this is the bracket with the architecture.

## Implementation notes

Texts are lists of characters. Arguments of a command are strings.
-/

namespace PmxAgents.Updater.Apt

open Lib

/-! ## Reading a line -/

structure PackageInfo where
  name : List Char
  installedVersion : List Char
  candidateVersion : List Char
  security : Bool
  deriving DecidableEq, Repr

def instWord : List Char := "Inst ".toList

/-- What stands behind `Inst ` in a line. -/
def stripInst (line : List Char) : Option (List Char) :=
  if instWord <+: Text.trim line then some ((Text.trim line).drop instWord.length) else none

def isSecurity (source : List Char) : Bool :=
  "-security".toList <:+: source ∨ "debian-security".toList <:+: source ∨
    "security/".toList <:+: source ∨ "ubuntu-esm".toList <:+: source

/-- The text in the first square brackets. -/
def bracketed (rest : List Char) : Option (List Char) :=
  (Delimited.between '[' ']' rest).map Text.trim

def parseInstallLine (line : List Char) : Option PackageInfo := do
  let rest ← stripInst line
  let name ← (Text.fields rest).head?.map Text.trim
  if name = [] then none
  else
    let installedVersion := (bracketed rest).getD []
    let candidateTail ← (Delimited.after '(' rest).map Text.trim
    let candidateVersion ← (Text.fields candidateTail).head?.map Text.trim
    if candidateVersion = [] then none
    else
      let source := (candidateTail.drop candidateVersion.length).map Char.toLower
      some ⟨name, installedVersion, candidateVersion, isSecurity source⟩

/-! ## Asking apt -/

structure CommandOutput where
  success : Bool
  stdout : List Char
  stderr : List Char
  deriving DecidableEq, Repr

inductive AptError where
  /-- The command could not be run. -/
  | execute
  | failed (operation : String) (detail : List Char)
  deriving DecidableEq, Repr

abbrev CommandRunner := List String → Except AptError CommandOutput

def runChecked (runner : CommandRunner) (arguments : List String) (operation : String) :
    Except AptError CommandOutput := do
  let output ← runner arguments
  if output.success then return output
  else
    let detail :=
      if Text.trim output.stderr = [] then Text.trim output.stdout else Text.trim output.stderr
    throw (.failed operation (detail.take 4096))

def planArguments : List String :=
  ["-s", "-V", "-o", "Dpkg::Lock::Timeout=60", "upgrade", "--with-new-pkgs"]

def planUpgrades (runner : CommandRunner) : Except AptError (List PackageInfo) := do
  let output ← runChecked runner planArguments "simulate package upgrade"
  return (Text.lines output.stdout).filterMap parseInstallLine

/-! ## Lines as apt prints them -/

/-- A name, a version or an architecture: a word without brackets. -/
structure Word where
  text : List Char
  ne_nil : text ≠ []
  plain : ∀ c ∈ text, Text.isSpace c = false ∧ c ∉ ['[', ']', '(', ')']

structure Package where
  name : Word
  installed : Option Word
  candidate : Word
  origins : List (List Char)
  arch : Word

/-- The bracket with the installed version, left out for a new package. -/
def Package.installedText (p : Package) : List Char :=
  match p.installed with
  | some version => '[' :: (version.text ++ "] ".toList)
  | none => []

def Package.originsText (p : Package) : List Char := ", ".toList.intercalate p.origins

/-- What follows the candidate version. -/
def Package.sourceText (p : Package) : List Char :=
  ' ' :: (p.originsText ++ ' ' :: '[' :: (p.arch.text ++ "])".toList))

/-- What follows the name. -/
def Package.tailText (p : Package) : List Char :=
  p.installedText ++ '(' :: (p.candidate.text ++ p.sourceText)

def Package.line (p : Package) : List Char := instWord ++ (p.name.text ++ ' ' :: p.tailText)

/-- The installed version, empty for a new package. -/
def Package.installedVersion (p : Package) : List Char :=
  match p.installed with
  | some version => version.text
  | none => []

/-- Name and versions are read as they were printed. -/
def Package.Recovered (p : Package) : Prop :=
  ∃ info, parseInstallLine p.line = some info ∧ info.name = p.name.text ∧
    info.installedVersion = p.installedVersion ∧ info.candidateVersion = p.candidate.text

/-- A line of the output: a planned package, or another line. -/
inductive OutputLine where
  | inst (p : Package)
  | other (text : List Char) (h : ¬ instWord <+: Text.trim text)

def OutputLine.text : OutputLine → List Char
  | .inst p => p.line
  | .other text _ => text

def OutputLine.package? : OutputLine → Option Package
  | .inst p => some p
  | .other _ _ => none

/-! ## What is found in a printed line -/

section Word
variable (w : Word)

theorem Word.isSpace_eq {c : Char} (hc : c ∈ w.text) : Text.isSpace c = false := (w.plain c hc).1

theorem Word.notMem {c : Char} (hc : c ∈ ['[', ']', '(', ')']) : c ∉ w.text :=
  fun hmem => (w.plain c hmem).2 hc

theorem Word.trim_text : Text.trim w.text = w.text := Delimited.trim_of_word fun _ => w.isSpace_eq

theorem Word.head?_fields (t : List Char) :
    (Text.fields (w.text ++ ' ' :: t)).head? = some w.text :=
  Delimited.head?_fields w.ne_nil (fun _ => w.isSpace_eq) rfl t

/-- A text that begins with a word and ends with a parenthesis has no white space around it. -/
theorem Word.trim_append (t : List Char) :
    Text.trim (w.text ++ (t ++ [')'])) = w.text ++ (t ++ [')']) := by
  obtain ⟨c, cs, hcs⟩ := List.exists_cons_of_ne_nil w.ne_nil
  have hc : Text.isSpace c = false := w.isSpace_eq (hcs ▸ List.mem_cons_self)
  rw [hcs, List.cons_append, ← List.append_assoc]
  exact Delimited.trim_eq_self hc rfl (cs ++ t)

end Word

section Package
variable (p : Package)

theorem sourceText_eq : ∃ t, p.sourceText = ' ' :: (t ++ [')']) :=
  ⟨p.originsText ++ ' ' :: '[' :: (p.arch.text ++ [']']), by simp [Package.sourceText]⟩

theorem stripInst_line : stripInst p.line = some (p.name.text ++ ' ' :: p.tailText) := by
  obtain ⟨t, ht⟩ := sourceText_eq p
  have htrim : Text.trim p.line = p.line := by
    have hline : p.line = 'I' :: ((['n', 's', 't', ' '] ++ (p.name.text ++ ' ' ::
        (p.installedText ++ '(' :: (p.candidate.text ++ ' ' :: t)))) ++ [')']) := by
      simp [Package.line, Package.tailText, ht, instWord]
    rw [hline]
    exact Delimited.trim_eq_self rfl rfl _
  rw [stripInst, htrim, Package.line, if_pos (List.prefix_append instWord _), List.drop_left]

theorem notMem_installedText : '(' ∉ p.installedText := by
  rw [Package.installedText]
  cases p.installed with
  | none => exact List.not_mem_nil
  | some version =>
      have hversion : '(' ∉ version.text := version.notMem (by decide)
      simp [hversion]

theorem after_line :
    Delimited.after '(' (p.name.text ++ ' ' :: p.tailText) =
      some (p.candidate.text ++ p.sourceText) := by
  have hname : '(' ∉ p.name.text := p.name.notMem (by decide)
  have hbefore : '(' ∉ p.name.text ++ ' ' :: p.installedText := by
    simp [hname, notMem_installedText p]
  rw [Package.tailText, ← List.cons_append, ← List.append_assoc]
  exact Delimited.after_append_cons hbefore _

/-- Name and candidate are always found; the first brackets are taken for the installed version. -/
theorem parseInstallLine_line :
    parseInstallLine p.line =
      some ⟨p.name.text, (bracketed (p.name.text ++ ' ' :: p.tailText)).getD [], p.candidate.text,
        isSecurity (p.sourceText.map Char.toLower)⟩ := by
  obtain ⟨t, ht⟩ := sourceText_eq p
  have htrim : Text.trim (p.candidate.text ++ p.sourceText) = p.candidate.text ++ p.sourceText := by
    rw [ht]
    exact p.candidate.trim_append (' ' :: t)
  have hfields : (Text.fields (p.candidate.text ++ p.sourceText)).head? =
      some p.candidate.text := by
    rw [ht]
    exact p.candidate.head?_fields _
  simp only [parseInstallLine, stripInst_line, Word.head?_fields, after_line, htrim, hfields,
    Word.trim_text, p.name.ne_nil, p.candidate.ne_nil, Option.map_some, Option.bind_eq_bind,
    Option.bind_some, if_false, List.drop_left]

theorem bracketed_of_installed {version : Word} (h : p.installed = some version) :
    bracketed (p.name.text ++ ' ' :: p.tailText) = some version.text := by
  have hname : '[' ∉ p.name.text ++ [' '] := by
    have hnotMem : '[' ∉ p.name.text := p.name.notMem (by decide)
    simp [hnotMem]
  have htail : p.name.text ++ ' ' :: p.tailText = (p.name.text ++ [' ']) ++
      '[' :: (version.text ++ ']' :: (' ' :: '(' :: (p.candidate.text ++ p.sourceText))) := by
    simp [Package.tailText, Package.installedText, h]
  rw [bracketed, htail, Delimited.between_append hname (version.notMem (by decide)),
    Option.map_some, version.trim_text]

theorem bracketed_of_not_installed (h : p.installed = none) :
    bracketed (p.name.text ++ ' ' :: p.tailText) =
      bracketed (p.originsText ++ ' ' :: '[' :: (p.arch.text ++ "])".toList)) := by
  have hname : '[' ∉ p.name.text := p.name.notMem (by decide)
  have hcandidate : '[' ∉ p.candidate.text := p.candidate.notMem (by decide)
  have hbefore : '[' ∉ p.name.text ++ ' ' :: '(' :: (p.candidate.text ++ [' ']) := by
    simp [hname, hcandidate]
  have htail : p.name.text ++ ' ' :: p.tailText =
      (p.name.text ++ ' ' :: '(' :: (p.candidate.text ++ [' '])) ++
        (p.originsText ++ ' ' :: '[' :: (p.arch.text ++ "])".toList)) := by
    simp [Package.tailText, Package.installedText, Package.sourceText, h]
  rw [htail, bracketed, Delimited.between_append_of_notMem hbefore, bracketed]

/-- For a new package nothing is found only if the origins have blank brackets. -/
theorem bracketed_origins_iff :
    (bracketed (p.originsText ++ ' ' :: '[' :: (p.arch.text ++ "])".toList))).getD [] = [] ↔
      bracketed p.originsText = some [] := by
  have harch : ']' ∉ p.arch.text := p.arch.notMem (by decide)
  rw [bracketed, bracketed]
  cases hb : Delimited.between '[' ']' p.originsText with
  | some w =>
      rw [Delimited.between_append_of_some hb, Option.map_some, Option.getD_some, Option.some.injEq]
  | none =>
      rw [Option.map_none]
      refine iff_of_false (fun hnil => ?_) fun hnone => Option.some_ne_none _ hnone.symm
      rcases Delimited.between_append_of_none hb (' ' :: '[' :: (p.arch.text ++ "])".toList)) with
        heq | ⟨r, heq, hr⟩
      · have hfound : Delimited.between '[' ']' (' ' :: '[' :: (p.arch.text ++ "])".toList)) =
            some p.arch.text := Delimited.between_append (s := [' ']) (by decide) harch [')']
        rw [heq, hfound, Option.map_some, Option.getD_some, p.arch.trim_text] at hnil
        exact p.arch.ne_nil hnil
      · have hclose : ']' ∉ r ++ ' ' :: '[' :: p.arch.text := by simp [hr, harch]
        have hfound : Delimited.between '[' ']'
            ('[' :: (r ++ ' ' :: '[' :: (p.arch.text ++ "])".toList))) =
              some (r ++ ' ' :: '[' :: p.arch.text) := by
          have hpair : Delimited.between '[' ']'
              ([] ++ '[' :: ((r ++ ' ' :: '[' :: p.arch.text) ++ ']' :: [')'])) =
                some (r ++ ' ' :: '[' :: p.arch.text) :=
            Delimited.between_append List.not_mem_nil hclose [')']
          simpa using hpair
        rw [heq, hfound, Option.map_some, Option.getD_some] at hnil
        exact Delimited.trim_ne_nil (c := '[') rfl (by simp) hnil

theorem recovered_iff : p.Recovered ↔ p.installed.isSome ∨ bracketed p.originsText = some [] := by
  have hread : p.Recovered ↔
      (bracketed (p.name.text ++ ' ' :: p.tailText)).getD [] = p.installedVersion := by
    rw [Package.Recovered, parseInstallLine_line]
    constructor
    · rintro ⟨info, hinfo, -, hinstalled, -⟩
      rw [← Option.some.inj hinfo] at hinstalled
      exact hinstalled
    · exact fun hinstalled => ⟨_, rfl, rfl, hinstalled, rfl⟩
  rw [hread, Package.installedVersion]
  cases hp : p.installed with
  | some version =>
      rw [bracketed_of_installed p hp]
      exact iff_of_true rfl (Or.inl rfl)
  | none =>
      rw [bracketed_of_not_installed p hp]
      simp only [bracketed_origins_iff, Option.isSome_none, Bool.false_eq_true, false_or]

end Package

/-! ## What is planned -/

/-- The entry is the one that is read from the line of a package. -/
def EntryFor (p : Package) (info : PackageInfo) : Prop :=
  parseInstallLine p.line = some info ∧ info.name = p.name.text ∧
    info.candidateVersion = p.candidate.text

theorem planUpgrades_eq {runner : CommandRunner} {output : CommandOutput}
    (hrun : runner planArguments = .ok output) (hsuccess : output.success) :
    planUpgrades runner = .ok ((Text.lines output.stdout).filterMap parseInstallLine) := by
  simp only [planUpgrades, runChecked, hrun, bind, Except.bind, if_pos hsuccess]
  rfl

/-- Each line of a package gives one entry, in the order of the lines. -/
theorem forall₂_entryFor (content : List OutputLine) :
    List.Forall₂ EntryFor (content.filterMap OutputLine.package?)
      ((content.map OutputLine.text).filterMap parseInstallLine) := by
  induction content with
  | nil => exact List.Forall₂.nil
  | cons line content ih =>
      cases line with
      | inst p =>
          rw [List.map_cons, OutputLine.text, List.filterMap_cons, List.filterMap_cons,
            parseInstallLine_line]
          exact List.Forall₂.cons ⟨parseInstallLine_line p, rfl, rfl⟩ ih
      | other text h =>
          have hnone : parseInstallLine text = none := by
            rw [parseInstallLine, stripInst, if_neg h]
            rfl
          rw [List.map_cons, OutputLine.text, List.filterMap_cons, List.filterMap_cons, hnone]
          exact ih

/-- A printed package is read back exactly if it is installed or its origins happen to have blank
brackets. In any case the plan has one entry for each package that is printed, in order. -/
theorem recovered_iff_installed (p : Package) :
    (p.Recovered ↔ p.installed.isSome ∨ bracketed p.originsText = some []) ∧
      ∀ (runner : CommandRunner) (output : CommandOutput) (content : List OutputLine),
        runner planArguments = .ok output → output.success →
        Text.lines output.stdout = content.map OutputLine.text →
        ∃ infos, planUpgrades runner = .ok infos ∧
          List.Forall₂ EntryFor (content.filterMap OutputLine.package?) infos := by
  refine ⟨recovered_iff p, fun runner output content hrun hsuccess hlines => ?_⟩
  rw [planUpgrades_eq hrun hsuccess, hlines]
  exact ⟨_, rfl, forall₂_entryFor content⟩

/-! ## An upgrade and a new package -/

def wordText (text : String) : Prop :=
  text.toList ≠ [] ∧ ∀ c ∈ text.toList, Text.isSpace c = false ∧ c ∉ ['[', ']', '(', ')']

instance (text : String) : Decidable (wordText text) :=
  @instDecidableAnd _ _ inferInstance (List.decidableBAll _ _)

def word (text : String) (h : wordText text) : Word := ⟨text.toList, h.1, h.2⟩

def amd64 : Word := word "amd64" (by decide)

/-- The line `Inst curl [8.3.0-1] (8.4.0-1 Debian:12/stable [amd64])`. -/
def curl : Package where
  name := word "curl" (by decide)
  installed := some (word "8.3.0-1" (by decide))
  candidate := word "8.4.0-1" (by decide)
  origins := ["Debian:12/stable".toList]
  arch := amd64

/-- A runner that plans to upgrade one package. -/
def curlOutput : CommandOutput := ⟨true, curl.line, []⟩

theorem recovered_iff_installed_curl :
    curl.Recovered ∧ ∃ infos, planUpgrades (fun _ => .ok curlOutput) = .ok infos ∧
      List.Forall₂ EntryFor [curl] infos :=
  ⟨(recovered_iff_installed curl).1.mpr (Or.inl rfl),
    (recovered_iff_installed curl).2 (fun _ => .ok curlOutput) curlOutput [.inst curl] rfl rfl
      (by decide +kernel)⟩

/-- The line `Inst linux-image-6.1.0-18 (6.1.76-1 Debian:12/stable [amd64])`. -/
def newKernel : Package where
  name := word "linux-image-6.1.0-18" (by decide)
  installed := none
  candidate := word "6.1.76-1" (by decide)
  origins := ["Debian:12/stable".toList]
  arch := amd64

/-- The architecture of a new package is read as its installed version. -/
theorem new_package_reads_arch :
    newKernel.line = "Inst linux-image-6.1.0-18 (6.1.76-1 Debian:12/stable [amd64])".toList ∧
      parseInstallLine newKernel.line =
        some ⟨"linux-image-6.1.0-18".toList, "amd64".toList, "6.1.76-1".toList, false⟩ ∧
      ¬ newKernel.Recovered := by
  have hparse : parseInstallLine newKernel.line =
      some ⟨"linux-image-6.1.0-18".toList, "amd64".toList, "6.1.76-1".toList, false⟩ := by
    decide +kernel
  refine ⟨by decide +kernel, hparse, ?_⟩
  rintro ⟨info, hinfo, -, hinstalled, -⟩
  rw [hparse] at hinfo
  rw [← Option.some.inj hinfo] at hinstalled
  exact absurd hinstalled (by decide)

end PmxAgents.Updater.Apt
