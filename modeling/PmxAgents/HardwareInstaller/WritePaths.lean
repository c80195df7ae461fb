import PmxAgents.HardwareInstaller.CommunityScript

/-!
# Where a script may write

The directories that a unit may write to are those its options name, once the list has been
split into words and the words have been resolved. The check of a request looks at the text
of a path only: that it begins with the text of a root. So a path that is accepted may lead
out of the root by `..`, or may consist of several words, each of which is a path by itself;
and making it makes every directory that is missing on its way.
-/

namespace PmxAgents.HardwareInstaller

open Lib Lib.Text Lib.FileSystem Lib.MakeDirs

/-! ## The options as the service manager reads them -/

/-- The characters between words. -/
def isBlank (c : Char) : Bool := c == ' ' || c == '\t' || c == '\n' || c == '\r'

/-- The value that an option gives to a property. -/
def valueOf (name arg : String) : Option String :=
  let lead := ("--property=" ++ name ++ "=").toList
  if lead.isPrefixOf arg.toList then some (String.ofList (arg.toList.drop lead.length)) else none

/-- The options before the command, which does not begin with a dash. -/
def unitOptions (args : List String) : List String :=
  args.takeWhile fun arg => "--".toList.isPrefixOf arg.toList

def valuesOf (name : String) (args : List String) : List String :=
  (unitOptions args).filterMap (valueOf name)

/-- The words of the directories that the unit may write to. -/
def readWriteWords (args : List String) : List (List Char) :=
  (valuesOf "ReadWritePaths" args).flatMap fun value => wordsBy isBlank value.toList

/-- The directory of an absolute path, with `.` and `..` resolved. -/
def directory (s : List Char) : Option Path :=
  if s.head? = some '/' then some (clean (components s)) else none

def dropSign (sign : Char) (s : List Char) : List Char := if s.head? = some sign then s.tail else s

/-- The directory that a word names: a minus is for one that may be missing, a plus for one below
the root of the unit. -/
def named (word : List Char) : Option Path := directory (dropSign '+' (dropSign '-' word))

/-- The directory is one of the roots or below one. -/
def Below (roots : List String) (d : Path) : Prop :=
  ∃ root ∈ writeRoots roots, ∃ r, directory (trim root.toList) = some r ∧ r <+: d

section Options
variable {interpreter : String} {scriptFD : ℤ} {writePaths allow network args : List String}
  {net : Bool} {name text : String}

theorem valueOf_append (hlead : "--property=" ++ name ++ "=" = text) (value : String) :
    valueOf name (text ++ value) = some value := by
  rw [valueOf, hlead, String.toList_append, if_pos (List.isPrefixOf_iff_prefix.mpr (by simp)),
    List.drop_left, String.ofList_toList]

theorem valueOf_append_other
    (hlead : ("--property=" ++ name ++ "=").toList.isPrefixOf text.toList = false)
    (htext : text.toList.isPrefixOf ("--property=" ++ name ++ "=").toList = false)
    (value : String) : valueOf name (text ++ value) = none := by
  rw [valueOf, if_neg]
  intro h
  have htext' : text.toList <+: (text ++ value).toList := by
    rw [String.toList_append]
    exact List.prefix_append _ _
  rcases List.prefix_or_prefix_of_prefix (List.isPrefixOf_iff_prefix.mp h) htext' with h | h
  · rw [List.isPrefixOf_iff_prefix.mpr h] at hlead
    cases hlead
  · rw [List.isPrefixOf_iff_prefix.mpr h] at htext
    cases htext

/-- The entries of an accepted list of addresses, in their order. -/
theorem allowOptions_eq_ok (h : allowOptions allow = .ok network) :
    network = ((allow.map trimSpace).filter (· ≠ "")).map ("--property=IPAddressAllow=" ++ ·) ∧
      ∀ v ∈ (allow.map trimSpace).filter (· ≠ ""), isAllowEntry v := by
  induction allow generalizing network with
  | nil =>
      obtain rfl := Except.ok.inj h
      exact ⟨rfl, nofun⟩
  | cons raw rest ih =>
      rw [allowOptions] at h
      split_ifs at h with hblank hentry
      · rw [List.map_cons, List.filter_cons_of_neg (by simp [hblank])]
        exact ih h
      · rw [List.map_cons, List.filter_cons_of_pos (by simp [hblank])]
        cases hrest : allowOptions rest with
        | error e => simp only [hrest] at h; cases h
        | ok options =>
            simp only [hrest] at h
            obtain rfl := Except.ok.inj h
            obtain ⟨rfl, hvalid⟩ := ih hrest
            refine ⟨rfl, fun v hv => ?_⟩
            rcases List.mem_cons.mp hv with rfl | hv
            · exact Bool.eq_true_of_not_eq_false hentry
            · exact hvalid v hv

/-- The unit has no network, or an option for each entry of the list. -/
theorem networkOptions_eq_ok (h : networkOptions net allow = .ok network) :
    net = false ∧ network = ["--property=PrivateNetwork=true"] ∨
      net = true ∧
        network = ((allow.map trimSpace).filter (· ≠ "")).map ("--property=IPAddressAllow=" ++ ·) ∧
        ∀ v ∈ (allow.map trimSpace).filter (· ≠ ""), isAllowEntry v := by
  rw [networkOptions] at h
  split_ifs at h with hnet hempty
  · exact Or.inl ⟨hnet, (Except.ok.inj h).symm⟩
  · cases hallow : allowOptions allow with
    | error e => simp only [hallow] at h; cases h
    | ok options =>
        simp only [hallow] at h
        split_ifs at h
        obtain rfl := Except.ok.inj h
        exact Or.inr ⟨Bool.eq_true_of_not_eq_false hnet, allowOptions_eq_ok hallow⟩

theorem buildExecTarget_eq_ok {execPath : String} {execArgs : List String}
    (h : buildExecTarget interpreter scriptFD = .ok (execPath, execArgs)) :
    "--".toList.isPrefixOf execPath.toList = false := by
  rw [buildExecTarget] at h
  split_ifs at h with hfd hshell hpython
  · obtain ⟨rfl, -⟩ := Prod.mk.inj (Except.ok.inj h)
    rcases hshell with rfl | rfl
    · decide +kernel
    · decide +kernel
  · obtain ⟨rfl, -⟩ := Prod.mk.inj (Except.ok.inj h)
    rw [hpython]
    decide +kernel

theorem dashed_sandboxOptions :
    ∀ arg ∈ sandboxOptions writePaths, "--".toList.isPrefixOf arg.toList := by
  intro arg harg
  simp only [sandboxOptions, List.mem_cons, List.not_mem_nil, or_false] at harg
  rcases harg with rfl | rfl | rfl | rfl | rfl | rfl | rfl | rfl | rfl | rfl
  all_goals first | decide +kernel | skip
  rw [List.isPrefixOf_iff_prefix, String.toList_append]
  exact List.IsPrefix.trans (by decide +kernel) (List.prefix_append _ _)

theorem dashed_networkOptions (h : networkOptions net allow = .ok network) :
    ∀ arg ∈ network, "--".toList.isPrefixOf arg.toList := by
  rcases networkOptions_eq_ok h with ⟨-, rfl⟩ | ⟨-, rfl, -⟩
  · decide +kernel
  · intro arg harg
    obtain ⟨v, -, rfl⟩ := List.mem_map.mp harg
    rw [List.isPrefixOf_iff_prefix, String.toList_append]
    exact List.IsPrefix.trans (by decide +kernel) (List.prefix_append _ _)

/-- The options of the unit are the fixed ones and those for the network. -/
theorem valuesOf_args
    (h : buildSystemdRunArgs interpreter scriptFD writePaths net allow = .ok args) :
    ∃ network, networkOptions net allow = .ok network ∧
      ∀ name, valuesOf name args =
        (sandboxOptions writePaths).filterMap (valueOf name) ++
          network.filterMap (valueOf name) := by
  rw [buildSystemdRunArgs] at h
  cases htarget : buildExecTarget interpreter scriptFD with
  | error e => simp only [htarget] at h; cases h
  | ok target =>
      obtain ⟨execPath, execArgs⟩ := target
      simp only [htarget] at h
      cases hnetwork : networkOptions net allow with
      | error e => simp only [hnetwork] at h; cases h
      | ok network =>
          simp only [hnetwork] at h
          obtain rfl := Except.ok.inj h
          refine ⟨network, rfl, fun name => ?_⟩
          have hdashed : ∀ arg ∈ sandboxOptions writePaths ++ network,
              "--".toList.isPrefixOf arg.toList := fun arg harg =>
            (List.mem_append.mp harg).elim (dashed_sandboxOptions arg)
              (dashed_networkOptions hnetwork arg)
          have hoptions : unitOptions (sandboxOptions writePaths ++ network ++ execPath :: execArgs)
              = sandboxOptions writePaths ++ network := by
            rw [unitOptions, List.takeWhile_append_of_pos hdashed,
              List.takeWhile_cons_of_neg (by rw [buildExecTarget_eq_ok htarget]; exact
                Bool.false_ne_true), List.append_nil]
          rw [valuesOf, hoptions, List.filterMap_append]

/-- The fixed options other than the directories to write to. -/
def fixedOptions : List String := (sandboxOptions []).take 8 ++ (sandboxOptions []).drop 9

theorem filterMap_sandboxOptions (hfixed : fixedOptions.filterMap (valueOf name) = []) :
    (sandboxOptions writePaths).filterMap (valueOf name) =
      (valueOf name ("--property=ReadWritePaths=" ++ " ".intercalate writePaths)).toList := by
  have hsplit : sandboxOptions writePaths = (sandboxOptions []).take 8 ++
      (("--property=ReadWritePaths=" ++ " ".intercalate writePaths) ::
        (sandboxOptions []).drop 9) := rfl
  rw [fixedOptions, List.filterMap_append, List.append_eq_nil_iff] at hfixed
  rw [hsplit, List.filterMap_append, List.filterMap_cons, hfixed.1, hfixed.2]
  cases valueOf name ("--property=ReadWritePaths=" ++ " ".intercalate writePaths) with
  | none => rfl
  | some v => rfl

/-- The words are those of the single paths. -/
theorem readWriteWords_args
    (h : buildSystemdRunArgs interpreter scriptFD writePaths net allow = .ok args) :
    readWriteWords args = writePaths.flatMap fun path => wordsBy isBlank path.toList := by
  obtain ⟨network, hnetwork, hvalues⟩ := valuesOf_args h
  have hnone : network.filterMap (valueOf "ReadWritePaths") = [] := by
    rcases networkOptions_eq_ok hnetwork with ⟨-, rfl⟩ | ⟨-, rfl, -⟩
    · decide +kernel
    · rw [List.filterMap_eq_nil_iff]
      intro arg harg
      obtain ⟨v, -, rfl⟩ := List.mem_map.mp harg
      exact valueOf_append_other (by decide +kernel) (by decide +kernel) v
  have hlist : valuesOf "ReadWritePaths" args = [" ".intercalate writePaths] := by
    rw [hvalues, hnone, List.append_nil, filterMap_sandboxOptions (by decide +kernel),
      valueOf_append (by decide +kernel)]
    rfl
  have hblank : isBlank ' ' = true := rfl
  rw [readWriteWords, hlist, List.flatMap_singleton, String.toList_intercalate,
    show " ".toList = [' '] from rfl, wordsBy_intercalate hblank, List.flatMap_map]

end Options

/-! ## Accepted paths -/

/-- The paths that the entries of a request stand for. -/
def writeTexts (entries : List String) : List String :=
  ((entries.map trimSpace).filter (· ≠ "")).map cleanPath

/-- The places that are passed when the paths are made. -/
def writePlaces (texts : List String) : List Path :=
  texts.flatMap fun text => way [] (pathParts text)

/-- Paths that may lead out of the roots do not: those with white space in them or with `..`, and
those for which a directory above a root is missing. -/
structure Contained (disk : Disk) (paths roots : List String) : Prop where
  words : ∀ text ∈ writeTexts (requestedPaths paths roots),
    (∃ c ∈ text.toList, isBlank c) ∨ ".." ∈ pathParts text →
      ∀ word ∈ wordsBy isBlank text.toList, ∀ d, named word = some d → Below roots d
  upwards : ∀ text ∈ writeTexts (requestedPaths paths roots), ".." ∈ pathParts text →
    ∀ q ∈ way [] (pathParts text),
      disk.Reaches (writePlaces (writeTexts (requestedPaths paths roots))) q → Below roots q
  above : ∀ root ∈ writeRoots roots, ∀ r, directory (trim root.toList) = some r → ∀ q, q <+: r →
    disk.Reaches (writePlaces (writeTexts (requestedPaths paths roots))) q → Below roots q

section Accepted
variable {roots paths out out' : List String} {raw : String}

/-- The text of a path that is accepted: absolute, and a root or below one as texts. -/
def Accepted (roots : List String) (text : String) : Prop :=
  text.toList.head? = some '/' ∧ ∃ root ∈ roots, underRoot text root = true

theorem head?_cleanPath {path : String} (h : path.toList.head? = some '/') :
    (cleanPath path).toList.head? = some '/' := by
  rw [cleanPath]
  split_ifs with hempty
  · rfl
  · rcases eq_trimSuffix_or path "/" with hsame | hcut
    · rwa [hsame]
    · have hne : (trimSuffix path "/").toList ≠ [] := mt String.toList_eq_nil_iff.mp hempty
      rwa [hcut, String.toList_append, List.head?_append_of_ne_nil _ hne] at h

theorem checkWritePath_eq_ok {entry : Option String} (h : checkWritePath roots raw = .ok entry) :
    entry = (if trimSpace raw = "" then none else some (cleanPath (trimSpace raw))) ∧
      (trimSpace raw ≠ "" → Accepted roots (cleanPath (trimSpace raw))) := by
  rw [checkWritePath] at h
  split_ifs at h ⊢ with hblank hspace habsolute hunder
  · exact ⟨(Except.ok.inj h).symm, fun hne => absurd hblank hne⟩
  · refine ⟨(Except.ok.inj h).symm, fun _ => ⟨head?_cleanPath ?_, ?_⟩⟩
    · simpa [PathText.isAbsolute] using habsolute
    · simpa using hunder

/-- An accepted list holds the paths of its entries, each at its first place. -/
theorem collectWritePaths_eq_ok (h : collectWritePaths roots out paths = .ok out') :
    out' = (writeTexts paths).foldl addNew out ∧
      ∀ text ∈ writeTexts paths, Accepted roots text := by
  induction paths generalizing out with
  | nil => exact ⟨(Except.ok.inj h).symm, nofun⟩
  | cons raw rest ih =>
      rw [collectWritePaths] at h
      rw [writeTexts, List.map_cons, List.filter_cons]
      cases hcheck : checkWritePath roots raw with
      | error e => simp only [hcheck] at h; cases h
      | ok entry =>
          obtain ⟨hentry, haccepted⟩ := checkWritePath_eq_ok hcheck
          split_ifs at hentry with hblank
          · subst hentry
            simp only [hcheck] at h
            simpa [hblank, writeTexts] using ih h
          · subst hentry
            simp only [hcheck] at h
            simpa [hblank, writeTexts, haccepted hblank] using ih h

theorem normalizeWritePaths_eq_ok (h : normalizeWritePaths paths roots = .ok out) :
    out = (writeTexts (requestedPaths paths roots)).foldl addNew [] ∧
      ∀ text ∈ writeTexts (requestedPaths paths roots), Accepted (writeRoots roots) text := by
  rw [normalizeWritePaths] at h
  cases hcollect : collectWritePaths (writeRoots roots) [] (requestedPaths paths roots) with
  | error e => simp only [hcollect] at h; cases h
  | ok collected =>
      simp only [hcollect] at h
      split_ifs at h
      obtain rfl := Except.ok.inj h
      exact collectWritePaths_eq_ok hcollect

theorem components_append_slash (s t : List Char) :
    components (s ++ '/' :: t) = components s ++ components t := by
  rw [components, split_append_sep, List.map_append]
  rfl

theorem directory_append_slash {s : List Char} (hs : s ≠ []) :
    directory (s ++ ['/']) = directory s := by
  rw [directory, directory, List.head?_append_of_ne_nil _ hs, components_append_slash,
    clean_eq_foldl, List.foldl_append, ← clean_eq_foldl]
  rfl

/-- A path without white space is one word, and is named by it. -/
theorem named_of_word {text : String} (hhead : text.toList.head? = some '/')
    (hblank : ¬ ∃ c ∈ text.toList, isBlank c) {word : List Char}
    (hword : word ∈ wordsBy isBlank text.toList) : named word = some (clean (pathParts text)) := by
  have hsplit : text.toList.splitOnP isBlank = [text.toList] :=
    List.splitOnP_eq_singleton fun c hc => by simpa using fun hb => hblank ⟨c, hc, hb⟩
  rw [wordsBy, hsplit] at hword
  obtain rfl := List.mem_singleton.mp (List.mem_filter.mp hword).1
  have hminus : dropSign '-' text.toList = text.toList := if_neg (by rw [hhead]; decide)
  have hplus : dropSign '+' text.toList = text.toList := if_neg (by rw [hhead]; decide)
  rw [named, hminus, hplus]
  exact if_pos hhead

/-- A text below a root leads below the directory of the root, unless it leads upwards. -/
theorem exists_root_prefix {text : String} (h : Accepted roots text)
    (hdown : ".." ∉ pathParts text) :
    ∃ root ∈ roots, ∃ r, directory (trim root.toList) = some r ∧ r <+: clean (pathParts text) := by
  obtain ⟨hhead, root, hroot, hunder⟩ := h
  refine ⟨root, hroot, ?_⟩
  have htrim : trim root.toList = (trimSpace root).toList := String.toList_ofList.symm
  simp only [underRoot, Bool.and_eq_true, Bool.or_eq_true, decide_eq_true_eq,
    List.isPrefixOf_iff_prefix, String.toList_append] at hunder
  obtain ⟨hne, hunder⟩ := hunder
  have hdirectory : directory (trim root.toList) =
      directory (trimSuffix (trimSpace root) "/").toList := by
    rw [htrim]
    rcases eq_trimSuffix_or (trimSpace root) "/" with hsame | hcut
    · rw [hsame]
    · conv_lhs => rw [hcut, String.toList_append]
      exact directory_append_slash (mt String.toList_eq_nil_iff.mp hne)
  generalize (trimSuffix (trimSpace root) "/") = stem at hne hunder hdirectory
  have hstem : stem.toList ≠ [] := mt String.toList_eq_nil_iff.mp hne
  obtain ⟨hstart, hparts⟩ : stem.toList.head? = some '/' ∧ clean (components stem.toList) <+:
      clean (pathParts text) := by
    rcases hunder with rfl | ⟨tail, htail⟩
    · exact ⟨hhead, List.prefix_rfl⟩
    · rw [List.append_assoc] at htail
      rw [pathParts, ← htail] at hdown ⊢
      rw [← htail, List.head?_append_of_ne_nil _ hstem] at hhead
      refine ⟨hhead, ?_⟩
      have hsplit := components_append_slash stem.toList tail
      rw [show "/".toList ++ tail = '/' :: tail from rfl, hsplit] at hdown ⊢
      rw [clean_eq_foldl (_ ++ _), List.foldl_append, ← clean_eq_foldl]
      exact prefix_foldl_enter (fun hmem => hdown (List.mem_append_right _ hmem)) _
  exact ⟨_, hdirectory.trans (if_pos hstart), hparts⟩

theorem mem_foldl_addNew {texts : List String} {text : String} :
    text ∈ texts.foldl addNew out ↔ text ∈ out ∨ text ∈ texts := by
  induction texts generalizing out with
  | nil => simp
  | cons t texts ih =>
      rw [List.foldl_cons, ih, addNew]
      split_ifs with hseen
      · rw [List.mem_cons]
        constructor
        · tauto
        · rintro (h | rfl | h)
          · exact Or.inl h
          · exact Or.inl hseen
          · exact Or.inr h
      · simp [or_assoc]

/-- A path that stands twice is passed twice, which makes no difference. -/
theorem reaches_foldl_addNew {disk : Disk} {texts : List String} {q : Path} :
    disk.Reaches (writePlaces (texts.foldl addNew out)) q ↔
      disk.Reaches (writePlaces out ++ writePlaces texts) q := by
  induction texts generalizing out with
  | nil => simp [writePlaces]
  | cons t texts ih =>
      have hcons : writePlaces (t :: texts) = way [] (pathParts t) ++ writePlaces texts :=
        List.flatMap_cons
      rw [List.foldl_cons, ih, addNew, hcons]
      split_ifs with hseen
      · refine (reaches_append_again fun e he => ?_).symm
        exact List.mem_flatMap.mpr ⟨t, hseen, he⟩
      · simp [writePlaces]

theorem mem_made_createWritePaths {disk : Disk} {q : Path} :
    q ∈ (createWritePaths out disk).made ↔ disk.Reaches (writePlaces out) q := by
  have halong := along_makeEach (out.map pathParts) disk
  rw [List.flatMap_map] at halong
  exact halong.made q

end Accepted

/-- A script may write below the roots only, and only directories below them are made for it,
exactly if the paths of its request are contained in them. -/
theorem writes_below_iff (disk : Disk) (paths roots out : List String)
    (haccepted : normalizeWritePaths paths roots = .ok out) (interpreter : String) (scriptFD : ℤ)
    (net : Bool) (allow args : List String)
    (hargs : buildSystemdRunArgs interpreter scriptFD out net allow = .ok args) :
    ((∀ word ∈ readWriteWords args, ∀ d, named word = some d → Below roots d) ∧
        ∀ d ∈ (createWritePaths out disk).made, Below roots d) ↔ Contained disk paths roots := by
  obtain ⟨hout, htexts⟩ := normalizeWritePaths_eq_ok haccepted
  have hmem : ∀ text, text ∈ out ↔ text ∈ writeTexts (requestedPaths paths roots) := by
    intro text
    rw [hout, mem_foldl_addNew]
    simp
  have hmade : ∀ q, q ∈ (createWritePaths out disk).made ↔
      disk.Reaches (writePlaces (writeTexts (requestedPaths paths roots))) q := by
    intro q
    rw [mem_made_createWritePaths, hout, reaches_foldl_addNew]
    rfl
  rw [readWriteWords_args hargs]
  constructor
  · rintro ⟨hwords, hplaces⟩
    refine ⟨fun text htext _ word hword => ?_, fun _ _ _ q _ hq => hplaces q ((hmade q).mpr hq),
      fun _ _ _ _ q _ hq => hplaces q ((hmade q).mpr hq)⟩
    exact hwords word (List.mem_flatMap.mpr ⟨text, (hmem text).mpr htext, hword⟩)
  · intro h
    constructor
    · intro word hword d hd
      obtain ⟨text, htext, hin⟩ := List.mem_flatMap.mp hword
      have htext' := (hmem text).mp htext
      by_cases hcrooked : (∃ c ∈ text.toList, isBlank c) ∨ ".." ∈ pathParts text
      · exact h.words text htext' hcrooked word hin d hd
      · obtain ⟨hblank, hdown⟩ := not_or.mp hcrooked
        have haccepted := htexts text htext'
        obtain ⟨root, hroot, r, hr, hprefix⟩ := exists_root_prefix haccepted hdown
        obtain rfl := Option.some.inj ((named_of_word haccepted.1 hblank hin).symm.trans hd)
        exact ⟨root, hroot, r, hr, hprefix⟩
    · intro q hq
      have hreach := (hmade q).mp hq
      obtain ⟨text, htext, hway⟩ := List.mem_flatMap.mp hreach.mem
      by_cases hdown : ".." ∈ pathParts text
      · exact h.upwards text htext hdown q hway hreach
      · obtain ⟨root, hroot, r, hr, hprefix⟩ := exists_root_prefix (htexts text htext) hdown
        rcases List.prefix_or_prefix_of_prefix hprefix (prefix_of_mem_way hdown hway) with hle | hle
        · exact ⟨root, hroot, r, hr, hle⟩
        · exact h.above root hroot r hr q hle hreach

/-- A disk with directories in its root directory and nothing else. -/
def flatDisk (names : List String) : Disk where
  kind
    | [] => some .dir
    | [c] => if c ∈ names then some .dir else none
    | _ => none
  refuses _ := false
  root := rfl
  parent
    | [], _, _ => rfl
    | [_], _, h => nomatch h
    | _ :: _ :: _, _, h => nomatch h

/-- The command for a script without network. -/
def offlineArgs (writePaths : List String) : List String :=
  sandboxOptions writePaths ++ ["--property=PrivateNetwork=true"] ++
    ["/bin/bash", "/proc/self/fd/10"]

/-- Two new directories of a script are below a root, though one is named by way of the other. -/
theorem writes_below_job :
    (∀ word ∈ readWriteWords (offlineArgs ["/tmp/job", "/tmp/job/../cache"]), ∀ d,
        named word = some d → Below [] d) ∧
      ∀ d ∈ (createWritePaths ["/tmp/job", "/tmp/job/../cache"] (flatDisk ["tmp", "etc"])).made,
        Below [] d := by
  have htmp : ∀ d, ["tmp"] <+: d → Below [] d := fun d hd =>
    ⟨"/tmp", by decide, ["tmp"], by decide +kernel, hd⟩
  have htexts : writeTexts (requestedPaths ["/tmp/job", "/tmp/job/../cache"] []) =
      ["/tmp/job", "/tmp/job/../cache"] := by decide +kernel
  have hplaces : ∀ q, (flatDisk ["tmp", "etc"]).Reaches
      (writePlaces ["/tmp/job", "/tmp/job/../cache"]) q → Below [] q := by
    intro q hq
    have hbelow : ∀ q ∈ writePlaces ["/tmp/job", "/tmp/job/../cache"],
        (flatDisk ["tmp", "etc"]).kind q = none → ["tmp"] <+: q := by decide +kernel
    exact htmp q (hbelow q hq.mem hq.1)
  refine (writes_below_iff (flatDisk ["tmp", "etc"]) ["/tmp/job", "/tmp/job/../cache"] []
    ["/tmp/job", "/tmp/job/../cache"] (by decide +kernel) "/bin/bash" 7 false []
    (offlineArgs ["/tmp/job", "/tmp/job/../cache"]) (by decide +kernel)).mpr ⟨?_, ?_, ?_⟩
  · rw [htexts]
    intro text htext _ word hword d hd
    have hnamed : ∀ text ∈ ["/tmp/job", "/tmp/job/../cache"], ∀ word ∈ wordsBy isBlank text.toList,
        ∀ d ∈ named word, ["tmp"] <+: d := by decide +kernel
    exact htmp d (hnamed text htext word hword d hd)
  · rw [htexts]
    exact fun _ _ _ q _ hq => hplaces q hq
  · rw [htexts]
    exact fun _ _ _ _ q _ hq => hplaces q hq

/-- The text begins with a root, and the directory is outside of it. -/
theorem dottedPath_escapes :
    normalizeWritePaths ["/tmp/../etc/cron.d"] [] = .ok ["/tmp/../etc/cron.d"] ∧
      named "/tmp/../etc/cron.d".toList = some ["etc", "cron.d"] ∧
      "/tmp/../etc/cron.d".toList ∈ readWriteWords (offlineArgs ["/tmp/../etc/cron.d"]) ∧
      (createWritePaths ["/tmp/../etc/cron.d"] (flatDisk ["tmp", "etc"])).made =
        [["etc", "cron.d"]] ∧
      ¬ Below [] ["etc", "cron.d"] := by
  refine ⟨by decide +kernel, by decide +kernel, by decide +kernel, by decide +kernel, ?_⟩
  rintro ⟨root, hroot, r, hdirectory, hinside⟩
  have hroots : root = "/tmp" ∨ root = "/var/tmp" := by simpa [writeRoots] using hroot
  rcases hroots with rfl | rfl
  · have htmp : directory (trim "/tmp".toList) = some ["tmp"] := by decide +kernel
    obtain rfl := Option.some.inj (htmp.symm.trans hdirectory)
    exact absurd hinside (by decide)
  · have hvar : directory (trim "/var/tmp".toList) = some ["var", "tmp"] := by decide +kernel
    obtain rfl := Option.some.inj (hvar.symm.trans hdirectory)
    exact absurd hinside (by decide)

end PmxAgents.HardwareInstaller
