import Mathlib.Data.List.AList
import PmxAgents.Lib.FileSystem
import PmxAgents.Lib.Settings
import PmxAgents.Lib.Text

/-!
# Hardening of the SSH server

`ssh.harden` writes the desired profile as a drop-in file of the server and reloads it. The
server includes the drop-ins in the order of their names and takes the first value that it
finds for a keyword. What the profile achieves depends on the drop-ins that come before it.

## Implementation notes

The drop-in directory is a map from file names to texts. The server is a parameter: how it
takes a line apart, what an `Include` inside of a drop-in reads, and what it makes of the
value of a keyword. `Match` blocks are not modelled, every line is in force.
-/

namespace PmxAgents.Security.Ssh

open Lib Lib.Text Lib.FileSystem Lib.KeySort

/-! ## The drop-in and the script -/

def desiredProfile : List (String × String) :=
  [("PasswordAuthentication", "no"), ("PermitRootLogin", "no"), ("PubkeyAuthentication", "yes"),
    ("KbdInteractiveAuthentication", "no"), ("ChallengeResponseAuthentication", "no")]

def profileLine (e : String × String) : List Char := e.1.toList ++ ' ' :: e.2.toList

def desiredDropIn : List Char :=
  ['\n'].intercalate ((sortByKey nameLe desiredProfile).map profileLine) ++ ['\n']

/-- The files of `/etc/ssh/sshd_config.d`. -/
abbrev DropIns := AList fun _ : String => List Char

def target : String := "99-pmx-cloud.conf"

/-- The exit codes of the programs that the script runs. -/
structure Host where
  install : ℕ
  sshdTest : DropIns → ℕ
  reload : ℕ

/-- The script ends at the first program that fails, except for the test of the configuration.
When that fails the drop-in is removed. -/
def applyScript (host : Host) (content : List Char) (d : DropIns) : ℕ × DropIns :=
  if host.install ≠ 0 then (host.install, d)
  else if host.sshdTest (d.insert target content) = 0 then (host.reload, d.insert target content)
  else (1, (d.insert target content).erase target)

def harden (host : Host) (d : DropIns) : ℕ × DropIns := applyScript host desiredDropIn d

theorem harden_eq_zero {host : Host} {d d' : DropIns} (h : harden host d = (0, d')) :
    d' = d.insert target desiredDropIn := by
  rw [harden, applyScript] at h
  split_ifs at h with hinstall htest
  · exact absurd (Prod.mk.inj h).1 hinstall
  · exact (Prod.mk.inj h).2.symm
  · cases (Prod.mk.inj h).1

/-! ## The server -/

/-- The server: the keyword and the arguments of a line, the settings that an `Include` with
these arguments contributes inside of a drop-in, and the value of a keyword. -/
structure Sshd (V : Type*) where
  directive : List Char → Option (String × String)
  nested : String → List (String × String)
  reading : String → String → V

/-- Keywords are compared without case. -/
def lowerCase (s : String) : String := String.ofList (s.toList.map Char.toLower)

/-- A line of a keyword and an argument of letters, with a space between them, is read as it is
documented. -/
def Sshd.ReadsWords {V : Type*} (sshd : Sshd V) : Prop :=
  ∀ k v : String, k ≠ "" → v ≠ "" → k.toList.all Char.isAlpha → v.toList.all Char.isAlpha →
    sshd.directive (profileLine (k, v)) = some (k, v)

section Server
variable {V : Type*} (sshd : Sshd V)

def Sshd.directives (text : List Char) : List (String × String) :=
  (lines text).filterMap sshd.directive

/-- The settings of a text in their order, those of included files in the place of the
`Include`. -/
def Sshd.settings (includes : String → List (String × String)) (text : List Char) :
    List (String × String) :=
  (sshd.directives text).flatMap fun e =>
    if lowerCase e.1 = "include" then includes e.2 else [(lowerCase e.1, e.2)]

/-- The names that the pattern of the `Include` finds. -/
def isConf (name : String) : Bool :=
  name.toList.head? ≠ some '.' ∧ ".conf".toList <:+ name.toList

def confNames (d : DropIns) : List String := (d.keys.filter isConf).insertionSort nameLe

def text (d : DropIns) (name : String) : List Char := (d.lookup name).getD []

def Sshd.settingsOf (d : DropIns) (names : List String) : List (String × String) :=
  names.flatMap fun name => sshd.settings sshd.nested (text d name)

def dropInPattern : String := "/etc/ssh/sshd_config.d/*.conf"

def Sshd.includes (d : DropIns) (arguments : String) : List (String × String) :=
  if arguments = dropInPattern then sshd.settingsOf d (confNames d) else sshd.nested arguments

/-- The first of some settings for a keyword. -/
def Sshd.first (settings : List (String × String)) (key : String) : Option V :=
  (settings.lookup (lowerCase key)).map (sshd.reading (lowerCase key))

/-- The value in force of a keyword that is set. -/
def Sshd.effective (main : List Char) (d : DropIns) (key : String) : Option V :=
  sshd.first (sshd.settings (sshd.includes d) main) key

/-- The main configuration starts with an `Include` of the drop-in directory. -/
def Sshd.StartsWithInclude (main : List Char) : Prop :=
  ∃ keyword, lowerCase keyword = "include" ∧
    (sshd.directives main).head? = some (keyword, dropInPattern)

end Server

/-! ## The order of the drop-ins -/

/-- The drop-ins that come before the installed one. -/
def earlier (d : DropIns) : List String :=
  (confNames d).filter fun name => name ≠ target ∧ nameLe name target

def later (d : DropIns) : List String :=
  (confNames d).filter fun name => name ≠ target ∧ ¬ nameLe name target

theorem keyOrder_nameLe : KeyOrder nameLe where
  total a b := le_total (a.toList.map Char.toNat) (b.toList.map Char.toNat)
  trans a b c := le_trans
  antisymm a b hab hba := by
    have heq := le_antisymm hab hba
    exact String.toList_inj.mp (List.map_injective_iff.mpr (fun c d h => Char.toNat_inj.mp h) heq)

theorem pairwise_confNames (d : DropIns) : (confNames d).Pairwise nameLe := by
  have : Std.Total nameLe := ⟨keyOrder_nameLe.total⟩
  have : IsTrans String nameLe := ⟨keyOrder_nameLe.trans⟩
  exact List.pairwise_insertionSort nameLe _

theorem mem_earlier {d : DropIns} {name : String} :
    name ∈ earlier d ↔ name ∈ confNames d ∧ name ≠ target ∧ nameLe name target := by
  simp [earlier]

theorem mem_later {d : DropIns} {name : String} :
    name ∈ later d ↔ name ∈ confNames d ∧ name ≠ target ∧ ¬ nameLe name target := by
  simp [later]

theorem earlier_append_later_perm (d : DropIns) :
    (earlier d ++ later d).Perm ((d.keys.erase target).filter isConf) := by
  have hearlier : earlier d =
      ((confNames d).filter (· ≠ target)).filter fun name => nameLe name target := by
    simp [earlier, List.filter_filter, Bool.and_comm]
  have hlater : later d =
      ((confNames d).filter (· ≠ target)).filter fun name => !decide (nameLe name target) := by
    simp [later, List.filter_filter, Bool.and_comm]
  have hconf : (confNames d).Perm (d.keys.filter isConf) := List.perm_insertionSort nameLe _
  calc
    (earlier d ++ later d).Perm ((confNames d).filter (· ≠ target)) := by
        rw [hearlier, hlater]
        exact List.filter_append_perm _ _
    List.Perm _ ((d.keys.filter isConf).filter (· ≠ target)) := hconf.filter _
    _ = (d.keys.erase target).filter isConf := by
        rw [d.keys_nodup.erase_eq_filter, List.filter_filter, List.filter_filter]
        refine List.filter_congr fun name _ => ?_
        by_cases hname : name = target <;> simp [hname]

/-- The names of the drop-ins, with the installed one in its place. -/
theorem confNames_insert (d : DropIns) (content : List Char) :
    confNames (d.insert target content) = earlier d ++ target :: later d := by
  have htarget : isConf target = true := by decide +kernel
  have hperm : (confNames (d.insert target content)).Perm (earlier d ++ target :: later d) := by
    calc
      (confNames (d.insert target content)).Perm ((d.insert target content).keys.filter isConf) :=
          List.perm_insertionSort nameLe _
      _ = target :: (d.keys.erase target).filter isConf := by
          rw [AList.keys_insert, List.filter_cons, if_pos htarget]
      List.Perm _ (target :: (earlier d ++ later d)) :=
          (earlier_append_later_perm d).symm.cons target
      List.Perm _ (earlier d ++ target :: later d) := List.perm_middle.symm
  refine List.Perm.eq_of_pairwise (fun a b _ _ => keyOrder_nameLe.antisymm a b)
    (pairwise_confNames _) ?_ hperm
  -- a name after the installed one is not below it
  have hle : ∀ name ∈ later d, nameLe target name := fun name hname =>
    (keyOrder_nameLe.total target name).resolve_right (mem_later.mp hname).2.2
  rw [List.pairwise_append, List.pairwise_cons]
  refine ⟨(pairwise_confNames d).filter _, ⟨hle, (pairwise_confNames d).filter _⟩, ?_⟩
  intro a ha b hb
  have hle' : nameLe a target := (mem_earlier.mp ha).2.2
  rcases List.mem_cons.mp hb with rfl | hb
  · exact hle'
  · exact keyOrder_nameLe.trans a target b hle' (hle b hb)

/-! ## What is in force -/

section Force
variable {V : Type*} {sshd : Sshd V}

theorem text_insert_ne {d : DropIns} {content : List Char} {name : String} (h : name ≠ target) :
    text (d.insert target content) name = text d name := by
  rw [text, text, AList.lookup_insert_ne h]

theorem settingsOf_insert {d : DropIns} {content : List Char} {names : List String}
    (h : ∀ name ∈ names, name ≠ target) :
    sshd.settingsOf (d.insert target content) names = sshd.settingsOf d names := by
  refine List.flatMap_congr fun name hname => ?_
  rw [text_insert_ne (h name hname)]

/-- The settings of the desired drop-in are the profile. -/
theorem settings_desiredDropIn (hwords : sshd.ReadsWords)
    (includes : String → List (String × String)) :
    sshd.settings includes desiredDropIn =
      (sortByKey nameLe desiredProfile).map fun e => (lowerCase e.1, e.2) := by
  have hlines : lines desiredDropIn = (sortByKey nameLe desiredProfile).map profileLine := by
    decide +kernel
  have hprofile : ∀ e ∈ sortByKey nameLe desiredProfile, e.1 ≠ "" ∧ e.2 ≠ "" ∧
      e.1.toList.all Char.isAlpha ∧ e.2.toList.all Char.isAlpha ∧ lowerCase e.1 ≠ "include" := by
    decide +kernel
  have hread : sshd.directives desiredDropIn = sortByKey nameLe desiredProfile := by
    rw [Sshd.directives, hlines, List.filterMap_map]
    refine (List.filterMap_congr fun e he => ?_).trans List.filterMap_some
    obtain ⟨hk, hv, hkalpha, hvalpha, -⟩ := hprofile e he
    exact hwords e.1 e.2 hk hv hkalpha hvalpha
  rw [Sshd.settings, hread, List.map_eq_flatMap]
  refine List.flatMap_congr fun e he => ?_
  rw [if_neg (hprofile e he).2.2.2.2]

theorem lookup_desiredDropIn : ∀ e ∈ desiredProfile,
    ((sortByKey nameLe desiredProfile).map fun e => (lowerCase e.1, e.2)).lookup (lowerCase e.1) =
      some e.2 := by
  decide +kernel

/-- The drop-ins before the installed one are asked first, then the installed one, and it sets
every key of the profile. -/
theorem lookup_harden (hwords : sshd.ReadsWords) {main : List Char}
    (hmain : sshd.StartsWithInclude main) {host : Host} {d d' : DropIns}
    (hexit : harden host d = (0, d')) {e : String × String} (he : e ∈ desiredProfile) :
    (sshd.settings (sshd.includes d') main).lookup (lowerCase e.1) =
      ((sshd.settingsOf d (earlier d)).lookup (lowerCase e.1)).or (some e.2) := by
  obtain rfl := harden_eq_zero hexit
  obtain ⟨keyword, hkeyword, hhead⟩ := hmain
  obtain ⟨rest, hrest⟩ := List.head?_eq_some_iff.mp hhead
  have hdropIn : sshd.settings sshd.nested (text (d.insert target desiredDropIn) target) =
      (sortByKey nameLe desiredProfile).map fun e => (lowerCase e.1, e.2) := by
    rw [text, AList.lookup_insert, Option.getD_some, settings_desiredDropIn hwords]
  have hincludes : sshd.includes (d.insert target desiredDropIn) dropInPattern =
      sshd.settingsOf d (earlier d) ++
        ((sortByKey nameLe desiredProfile).map (fun e => (lowerCase e.1, e.2)) ++
          sshd.settingsOf (d.insert target desiredDropIn) (later d)) := by
    rw [Sshd.includes, if_pos rfl, confNames_insert, Sshd.settingsOf, List.flatMap_append,
      List.flatMap_cons, hdropIn, ← Sshd.settingsOf, ← Sshd.settingsOf,
      settingsOf_insert fun name hname => (mem_earlier.mp hname).2.1]
  rw [Sshd.settings, hrest, List.flatMap_cons, if_pos hkeyword, hincludes, List.append_assoc,
    List.append_assoc, List.lookup_append, List.lookup_append, lookup_desiredDropIn e he]
  rfl

/-- The script having ended well, the server takes the values of the profile exactly if no drop-in
that comes before the installed one sets a key of the profile to another value first. -/
theorem hardened_iff (hwords : sshd.ReadsWords) {main : List Char}
    (hmain : sshd.StartsWithInclude main) {host : Host} {d d' : DropIns}
    (hexit : harden host d = (0, d')) :
    (∀ e ∈ desiredProfile,
        sshd.effective main d' e.1 = some (sshd.reading (lowerCase e.1) e.2)) ↔
      ∀ e ∈ desiredProfile, ∀ v, sshd.first (sshd.settingsOf d (earlier d)) e.1 = some v →
        v = sshd.reading (lowerCase e.1) e.2 := by
  refine forall₂_congr fun e he => ?_
  rw [Sshd.effective, Sshd.first, lookup_harden hwords hmain hexit he, Sshd.first]
  cases (sshd.settingsOf d (earlier d)).lookup (lowerCase e.1) with
  | none => simp
  | some u => simp

end Force

/-! ## A server that splits lines at white space -/

def simpleSshd : Sshd String where
  directive line :=
    match fields line with
    | [] => none
    | k :: args =>
        if k.head? = some '#' then none
        else some (String.ofList k, String.ofList ([' '].intercalate args))
  nested _ := []
  reading _ v := v

theorem isSpace_of_isAlpha {c : Char} (h : c.isAlpha) : isSpace c = false ∧ c ≠ '#' := by
  have hrange := Ascii.toNat_of_isAlpha h
  constructor
  · simp only [isSpace, Bool.or_eq_false_iff, Bool.and_eq_false_iff, decide_eq_false_iff_not,
      beq_eq_false_iff_ne]
    omega
  · rintro rfl
    exact absurd h (by decide)

theorem simpleSshd_readsWords : simpleSshd.ReadsWords := by
  intro k v hk hv hkalpha hvalpha
  have hfields : ∀ s : String, s ≠ "" → s.toList.all Char.isAlpha →
      fields s.toList = [s.toList] := by
    intro s hs halpha
    refine fields_of_word (fun hnil => hs (String.toList_inj.mp hnil)) fun c hc => ?_
    exact (isSpace_of_isAlpha (List.all_eq_true.mp halpha c hc)).1
  have hhash : k.toList.head? ≠ some '#' := fun hhead =>
    (isSpace_of_isAlpha (List.all_eq_true.mp hkalpha _ (List.mem_of_head? hhead))).2 rfl
  simp only [simpleSshd, profileLine]
  rw [fields_append_space (by decide), hfields k hk hkalpha, hfields v hv hvalpha]
  simp [hhash]

def quietHost : Host := ⟨0, fun _ => 0, 0⟩

def mainConfig : List Char :=
  "# server\ninclude /etc/ssh/sshd_config.d/*.conf\nUsePAM yes\n".toList

/-- A drop-in with the desired value before the installed one, and one with another value after
it. -/
def harmless : DropIns :=
  (AList.insert "99-zz.conf" "PasswordAuthentication yes\n".toList ∅).insert "10-site.conf"
    "PASSWORDAUTHENTICATION no\n".toList

theorem harmless_hardened :
    harden quietHost harmless = (0, harmless.insert target desiredDropIn) ∧
      ∀ e ∈ desiredProfile, simpleSshd.effective mainConfig (harmless.insert target desiredDropIn)
        e.1 = some (simpleSshd.reading (lowerCase e.1) e.2) :=
  ⟨rfl, (hardened_iff simpleSshd_readsWords ⟨"include", by decide +kernel, by decide +kernel⟩
    (show harden quietHost harmless = (0, harmless.insert target desiredDropIn) from rfl)).mpr
      (by decide +kernel)⟩

/-- A drop-in that cloud images bring along. -/
def cloudInit : DropIns :=
  AList.insert "50-cloud-init.conf" "PasswordAuthentication yes\n".toList ∅

/-- The script ends well, and passwords are accepted as before. -/
theorem cloudInit_not_hardened :
    harden quietHost cloudInit = (0, cloudInit.insert target desiredDropIn) ∧
      simpleSshd.StartsWithInclude mainConfig ∧ simpleSshd.ReadsWords ∧
      simpleSshd.effective mainConfig (cloudInit.insert target desiredDropIn)
        "PasswordAuthentication" = some "yes" ∧
      ¬ ∀ e ∈ desiredProfile, simpleSshd.effective mainConfig
        (cloudInit.insert target desiredDropIn) e.1 =
          some (simpleSshd.reading (lowerCase e.1) e.2) :=
  ⟨rfl, ⟨"include", by decide +kernel, by decide +kernel⟩, simpleSshd_readsWords,
    by decide +kernel, by decide +kernel⟩

end PmxAgents.Security.Ssh
