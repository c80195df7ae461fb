import Mathlib.Data.List.AList
import Mathlib.Data.List.Infix
import Mathlib.Data.List.Sort
import PmxAgents.Lib.Checks
import PmxAgents.Lib.FileSystem
import PmxAgents.Lib.Runs
import PmxAgents.Lib.Text

/-!
# Samba shares

The `samba.share` commands of the storage agent. A share is stored by `net usershare` under its
identifier with a prefix. The prefix is taken away from an identifier that has it, and it is taken
away from the names that are listed.

## Implementation notes

`net` stores and lists names as they are given. It may refuse a call, and it refuses to delete a
share that is not there. Other shares may be there from the start.
-/

namespace PmxAgents.Storage.Samba

open Lib Lib.Text Lib.FileSystem Lib.Runs

structure ShareParams where
  id : String
  path : String
  comment : String
  acl : String
  deriving DecidableEq, Repr

structure Usershare where
  path : String
  comment : String
  acl : String
  deriving DecidableEq, Repr

abbrev Shares := AList fun _ : String => Usershare

inductive ShareError where
  | invalidId
  | invalidPath
  | failed (err : String)
  deriving DecidableEq, Repr

/-! ## Checks -/

def pmxUsersharePrefix : List Char := "pmx-".toList

/-- The text without the start that all names of the agent have. -/
def trimPmx (s : List Char) : List Char :=
  if pmxUsersharePrefix <+: s then s.drop pmxUsersharePrefix.length else s

def isNameChar (c : Char) : Bool :=
  c == '-' || c == '_' || ('a' ≤ c && c ≤ 'z') || ('A' ≤ c && c ≤ 'Z') || ('0' ≤ c && c ≤ '9')

def isSafeName (v : List Char) : Bool := trim v ≠ [] ∧ (trim v).all isNameChar

def normalizeID (v : String) : Except ShareError (List Char) :=
  let id := trimPmx (trim v.toList)
  if ¬ isSafeName id then .error .invalidId else .ok id

def isSafePath (v : String) : Bool :=
  v.toList.head? = some '/' ∧ ¬ ['.', '.'] <:+: v.toList ∧
    v.toList.all fun c => c ∉ "\n\r\x00".toList

/-! ## Commands -/

def shareName (id : List Char) : String := String.ofList (pmxUsersharePrefix ++ id)

def orDefault (v default : String) : String := if trimSpace v = "" then default else trimSpace v

/-- `net` is the error of the program, if it fails. -/
def shareCreate (net : Option String) (s : Shares) (p : ShareParams) :
    Except ShareError Shares := do
  let id ← normalizeID p.id
  if ¬ isSafePath p.path then throw .invalidPath
  match net with
  | some err => .error (.failed err)
  | none => .ok (s.insert (shareName id)
      ⟨p.path, orDefault p.comment "PMX share", orDefault p.acl "Everyone:F"⟩)

def shareDelete (net : Option String) (s : Shares) (v : String) : Except ShareError Shares := do
  let id ← normalizeID v
  match net with
  | some err => .error (.failed err)
  | none =>
      if shareName id ∈ s then .ok (s.erase (shareName id))
      else .error (.failed ("share " ++ shareName id ++ " does not exist"))

/-- What `net usershare list` prints. -/
def listing (s : Shares) : List Char := s.keys.flatMap fun name => name.toList ++ ['\n']

def shareList (s : Shares) : List String :=
  (((split '\n' (trim (listing s))).filterMap fun line =>
    if pmxUsersharePrefix <+: trim line then
      some (String.ofList ((trim line).drop pmxUsersharePrefix.length))
    else none)).insertionSort nameLe

/-! ## Histories -/

inductive Call where
  | create (p : ShareParams)
  | delete (id : String)

/-- The effect of a call that is accepted. -/
def step (s : Shares) : Call → Option Shares
  | .create p => (shareCreate none s p).toOption
  | .delete id => (shareDelete none s id).toOption

/-- A share of somebody else: a line of its own that does not start as the names of the agent. -/
def Foreign (name : String) : Prop := '\n' ∉ name.toList ∧ ¬ pmxUsersharePrefix <+: trim name.toList

/-- Every identifier of the list deletes the share that it stands for, and no other. -/
def Deletable (s : Shares) : Prop :=
  ∀ id ∈ shareList s, shareName id.toList ∈ s ∧
    shareDelete none s id = .ok (s.erase (shareName id.toList))

/-- Neither the start of the names nor white space comes after the start that is taken away. -/
def PlainID (v : String) : Prop :=
  ¬ pmxUsersharePrefix ++ pmxUsersharePrefix <+: trim v.toList ∧
    ∀ c, pmxUsersharePrefix ++ [c] <+: trim v.toList → isSpace c = false

def Call.Plain : Call → Prop
  | .create p => PlainID p.id
  | .delete _ => True

/-! ## Identifiers -/

/-- An identifier as it is stored and found again. -/
structure Clean (id : List Char) : Prop where
  ne_nil : id ≠ []
  safe : ∀ c ∈ id, isNameChar c = true
  start : ¬ pmxUsersharePrefix <+: id

theorem isSpace_of_isNameChar {c : Char} (h : isNameChar c = true) : isSpace c = false := by
  have hval : c.toNat = c.val.toNat := rfl
  have hrange : 45 ≤ c.toNat ∧ c.toNat ≤ 122 := by
    simp only [isNameChar, Bool.or_eq_true, beq_iff_eq, Bool.and_eq_true, decide_eq_true_eq,
      Char.le_def, UInt32.le_iff_toNat_le, Char.reduceVal, UInt32.reduceToNat] at h
    rcases h with (((rfl | rfl) | h) | h) | h
    · decide
    · decide
    · omega
    · omega
    · omega
  simp only [isSpace, Bool.or_eq_false_iff, Bool.and_eq_false_iff, decide_eq_false_iff_not,
    beq_eq_false_iff_ne]
  omega

theorem trim_of_safe {l : List Char} (h : ∀ c ∈ l, isNameChar c = true) : trim l = l :=
  trim_eq_self (fun c hc => isSpace_of_isNameChar (h c (List.mem_of_mem_head? hc)))
    fun c hc => isSpace_of_isNameChar (h c (List.mem_of_mem_getLast? hc))

theorem safe_shareName {id : List Char} (h : ∀ c ∈ id, isNameChar c = true) :
    ∀ c ∈ pmxUsersharePrefix ++ id, isNameChar c = true := by
  intro c hc
  rcases List.mem_append.mp hc with hc | hc
  · exact List.all_eq_true.mp (by decide : pmxUsersharePrefix.all isNameChar = true) c hc
  · exact h c hc

theorem normalizeID_eq_ok_iff {v : String} {id : List Char} :
    normalizeID v = .ok id ↔ isSafeName (trimPmx (trim v.toList)) = true ∧
      trimPmx (trim v.toList) = id := by
  simp only [normalizeID, Checks.ite_error_eq_ok, not_not, Except.ok.injEq]

/-- What is left of a plain identifier has no white space around it. -/
theorem trim_trimPmx {v : String} (hplain : PlainID v) :
    trim (trimPmx (trim v.toList)) = trimPmx (trim v.toList) := by
  rw [trimPmx]
  split_ifs with hstart
  · obtain ⟨rest, hrest⟩ := hstart
    rw [← hrest, List.drop_left]
    refine trim_eq_self (fun c hc => ?_) fun c hc => ?_
    · obtain ⟨rest', rfl⟩ := List.head?_eq_some_iff.mp (Option.mem_def.mp hc)
      exact hplain.2 c ⟨rest', by rw [← hrest, List.append_assoc, List.singleton_append]⟩
    · refine isSpace_getLast_trim (s := v.toList) ?_
      rw [← hrest, List.getLast?_append, Option.mem_def.mp hc]
      rfl
  · exact trim_trim _

/-- A plain identifier is stored under a clean one. -/
theorem clean_of_plainID {v : String} (hplain : PlainID v) {id : List Char}
    (h : normalizeID v = .ok id) : Clean id := by
  obtain ⟨hsafe, rfl⟩ := normalizeID_eq_ok_iff.mp h
  obtain ⟨hne, hall⟩ := of_decide_eq_true hsafe
  rw [trim_trimPmx hplain] at hne hall
  refine ⟨hne, List.all_eq_true.mp hall, ?_⟩
  rw [trimPmx]
  split_ifs with hstart
  · rintro ⟨rest', hrest'⟩
    obtain ⟨rest, hrest⟩ := hstart
    rw [← hrest, List.drop_left] at hrest'
    exact hplain.1 ⟨rest', by rw [← hrest, ← hrest', List.append_assoc]⟩
  · exact hstart

/-- A clean identifier stays as it is. -/
theorem normalizeID_of_clean {id : List Char} (h : Clean id) :
    normalizeID (String.ofList id) = .ok id := by
  have htrim : trim id = id := trim_of_safe h.safe
  have hpmx : trimPmx id = id := by rw [trimPmx, if_neg h.start]
  rw [normalizeID_eq_ok_iff, String.toList_ofList, htrim, hpmx]
  exact ⟨decide_eq_true ⟨htrim.symm ▸ h.ne_nil, List.all_eq_true.mpr (htrim.symm ▸ h.safe)⟩, rfl⟩

/-! ## The stored names -/

/-- Every share is one of somebody else, or has a clean identifier. -/
def Inv (s : Shares) : Prop :=
  ∀ name ∈ s, Foreign name ∨ ∃ id, Clean id ∧ name = shareName id

theorem shareCreate_eq_ok_iff {s s' : Shares} {p : ShareParams} :
    shareCreate none s p = .ok s' ↔ ∃ id, normalizeID p.id = .ok id ∧ isSafePath p.path = true ∧
      s' = s.insert (shareName id)
        ⟨p.path, orDefault p.comment "PMX share", orDefault p.acl "Everyone:F"⟩ := by
  simp only [shareCreate, Checks.bind_eq_ok, Checks.ite_throw_bind_eq_ok, not_not, Except.ok.injEq]
  exact exists_congr fun id => and_congr_right fun _ => and_congr_right fun _ => eq_comm

theorem shareDelete_eq_ok_iff {s s' : Shares} {v : String} :
    shareDelete none s v = .ok s' ↔ ∃ id, normalizeID v = .ok id ∧ shareName id ∈ s ∧
      s' = s.erase (shareName id) := by
  simp only [shareDelete, Checks.bind_eq_ok]
  refine exists_congr fun id => and_congr_right fun _ => ?_
  split_ifs with hmem
  · exact ⟨fun h => ⟨hmem, (Except.ok.inj h).symm⟩, fun h => congrArg Except.ok h.2.symm⟩
  · exact iff_of_false nofun fun h => hmem h.1

theorem toOption_eq_some_iff {x : Except ShareError Shares} {s : Shares} :
    x.toOption = some s ↔ x = .ok s := by
  cases x with
  | error e => exact iff_of_false nofun nofun
  | ok t => exact ⟨fun h => congrArg Except.ok (Option.some.inj h),
      fun h => congrArg some (Except.ok.inj h)⟩

theorem inv_step {s s' : Shares} {c : Call} (hinv : Inv s) (hplain : c.Plain)
    (h : step s c = some s') : Inv s' := by
  cases c with
  | create p =>
      rw [step, toOption_eq_some_iff, shareCreate_eq_ok_iff] at h
      obtain ⟨id, hid, -, rfl⟩ := h
      intro name hname
      rcases (AList.mem_insert s).mp hname with rfl | hname
      · exact .inr ⟨id, clean_of_plainID hplain hid, rfl⟩
      · exact hinv name hname
  | delete v =>
      rw [step, toOption_eq_some_iff, shareDelete_eq_ok_iff] at h
      obtain ⟨id, -, -, rfl⟩ := h
      exact fun name hname => hinv name (AList.mem_erase.mp hname).2

/-! ## The listing -/

/-- The lines of the listing are the names, with an empty one after the last line end. -/
theorem mem_split_names {names : List String} (h : ∀ name ∈ names, '\n' ∉ name.toList)
    {w : List Char} (hw : w ∈ split '\n' (names.flatMap fun name => name.toList ++ ['\n'])) :
    w = [] ∨ ∃ name ∈ names, w = name.toList := by
  induction names with
  | nil => exact .inl (List.mem_singleton.mp hw)
  | cons name names ih =>
      rw [List.flatMap_cons, List.append_assoc, List.singleton_append, split_append_sep,
        split_of_not_mem (h name List.mem_cons_self)] at hw
      rcases List.mem_append.mp hw with hw | hw
      · exact .inr ⟨name, List.mem_cons_self, List.mem_singleton.mp hw⟩
      · rcases ih (fun n hn => h n (List.mem_cons_of_mem _ hn)) hw with hempty | ⟨n, hn, hw⟩
        · exact .inl hempty
        · exact .inr ⟨n, List.mem_cons_of_mem _ hn, hw⟩

theorem newline_notMem {s : Shares} (hinv : Inv s) {name : String} (hname : name ∈ s.keys) :
    '\n' ∉ name.toList := by
  rcases hinv name (AList.mem_keys.mpr hname) with hforeign | ⟨id, hclean, rfl⟩
  · exact hforeign.1
  · intro hmem
    rw [shareName, String.toList_ofList] at hmem
    exact absurd (safe_shareName hclean.safe '\n' hmem) (by decide)

/-- The list has the clean identifiers of the shares. -/
theorem exists_of_mem_shareList {s : Shares} (hinv : Inv s) {id : String} (h : id ∈ shareList s) :
    Clean id.toList ∧ shareName id.toList ∈ s := by
  rw [shareList, List.mem_insertionSort, List.mem_filterMap] at h
  obtain ⟨line, hline, hid⟩ := h
  split_ifs at hid with hstart
  obtain rfl := Option.some.inj hid
  rw [String.toList_ofList]
  obtain ⟨w, hw, htrim⟩ := exists_mem_split_of_trim hline
  rw [← htrim] at hstart ⊢
  rcases mem_split_names (fun name hname => newline_notMem hinv hname) hw with rfl |
    ⟨name, hname, rfl⟩
  · exact absurd hstart (by decide)
  · have hmem : name ∈ s := AList.mem_keys.mpr hname
    rcases hinv name hmem with hforeign | ⟨id, hclean, rfl⟩
    · exact absurd hstart hforeign.2
    · rw [shareName, String.toList_ofList, trim_of_safe (safe_shareName hclean.safe),
        List.drop_left]
      exact ⟨hclean, hmem⟩

theorem deletable_of_inv {s : Shares} (hinv : Inv s) : Deletable s := by
  intro id hid
  obtain ⟨hclean, hmem⟩ := exists_of_mem_shareList hinv hid
  have hnormal := normalizeID_of_clean hclean
  rw [String.ofList_toList] at hnormal
  exact ⟨hmem, shareDelete_eq_ok_iff.mpr ⟨id.toList, hnormal, hmem, rfl⟩⟩

/-- After accepted calls with plain identifiers, every listed identifier deletes its own share. -/
theorem listed_deletes_own_share {s₀ s : Shares} {calls : List Call}
    (hforeign : ∀ name ∈ s₀, Foreign name) (hplain : ∀ c ∈ calls, c.Plain)
    (hrun : exec step s₀ calls = some s) : Deletable s := by
  have hstep : ∀ s c s', Inv s → c.Plain → step s c = some s' → Inv s' := fun _ _ _ => inv_step
  exact deletable_of_inv (exec_invariant hstep (fun name hname => .inl (hforeign name hname))
    (admits_of_forall hplain) hrun)

/-! ## Two histories -/

def share (id path : String) : Call := .create ⟨id, path, "", ""⟩

def stored (path : String) : Usershare := ⟨path, "PMX share", "Everyone:F"⟩

def thirdParty : Shares := AList.insert "thirdparty" (stored "/srv/other") ∅

theorem foreign_thirdParty : ∀ name ∈ thirdParty, Foreign name := by
  intro name hname
  rcases (AList.mem_insert _).mp hname with rfl | hname
  · exact ⟨by decide, by decide⟩
  · exact absurd hname (AList.notMem_empty _)

theorem step_share {s : Shares} {v path : String} {id : List Char} (hid : normalizeID v = .ok id)
    (hpath : isSafePath path = true) :
    step s (share v path) = some (s.insert (shareName id) (stored path)) := by
  rw [share, step, toOption_eq_some_iff, shareCreate_eq_ok_iff]
  exact ⟨id, hid, hpath, rfl⟩

theorem plainID_of_safe {v : String} (hsafe : v.toList.all isNameChar = true)
    (hstart : ¬ pmxUsersharePrefix ++ pmxUsersharePrefix <+: trim v.toList) : PlainID v := by
  refine ⟨hstart, fun c hc => isSpace_of_isNameChar ?_⟩
  rw [trim_of_safe (List.all_eq_true.mp hsafe)] at hc
  exact List.all_eq_true.mp hsafe c (hc.subset (by simp))

theorem listed_deletes_own_share_thirdParty :
    (∀ name ∈ thirdParty, Foreign name) ∧ (∀ c ∈ [share "pmx-data" "/srv/a"], c.Plain) ∧
    Deletable (thirdParty.insert "pmx-data" (stored "/srv/a")) := by
  have hplain : ∀ c ∈ [share "pmx-data" "/srv/a"], c.Plain := by
    intro c hc
    obtain rfl := List.mem_singleton.mp hc
    exact plainID_of_safe (by decide) (by decide)
  have hrun : exec step thirdParty [share "pmx-data" "/srv/a"] =
      some (thirdParty.insert "pmx-data" (stored "/srv/a")) :=
    exec_cons.mpr ⟨_, step_share (by decide : normalizeID "pmx-data" = .ok "data".toList)
      (by decide), rfl⟩
  exact ⟨foreign_thirdParty, hplain, listed_deletes_own_share foreign_thirdParty hplain hrun⟩

/-- Two shares, the first of which has an identifier that starts as the names do. -/
def doubled : Shares :=
  (AList.insert "pmx-pmx-data" (stored "/srv/a") ∅).insert "pmx-data" (stored "/srv/b")

/-- The listed identifier of the first share deletes the second one. -/
theorem doubled_deletes_other :
    exec step ∅ [share "pmx-pmx-data" "/srv/a", share "data" "/srv/b"] = some doubled ∧
    "pmx-data" ∈ shareList doubled ∧ shareName "pmx-data".toList = "pmx-pmx-data" ∧
    shareDelete none doubled "pmx-data" = .ok (doubled.erase "pmx-data") ∧
    ¬ Deletable doubled := by
  have hrun : exec step ∅ [share "pmx-pmx-data" "/srv/a", share "data" "/srv/b"] = some doubled :=
    exec_cons.mpr ⟨_, step_share (by decide : normalizeID "pmx-pmx-data" = .ok "pmx-data".toList)
      (by decide), exec_cons.mpr ⟨_, step_share (by decide : normalizeID "data" = .ok "data".toList)
      (by decide), rfl⟩⟩
  have hmem : "pmx-data" ∈ doubled := (AList.mem_insert _).mpr (.inl rfl)
  have hdelete : shareDelete none doubled "pmx-data" = .ok (doubled.erase "pmx-data") :=
    shareDelete_eq_ok_iff.mpr ⟨"data".toList, by decide, hmem, rfl⟩
  have hlisted : "pmx-data" ∈ shareList doubled := by decide
  refine ⟨hrun, hlisted, by decide, hdelete, fun h => ?_⟩
  have hown := (h "pmx-data" hlisted).2
  rw [hdelete] at hown
  have hstays : "pmx-data" ∈ doubled.erase (shareName "pmx-data".toList) :=
    AList.mem_erase.mpr ⟨by decide, hmem⟩
  rw [← Except.ok.inj hown] at hstays
  exact (AList.mem_erase.mp hstays).1 rfl

end PmxAgents.Storage.Samba
