import PmxAgents.Lib.Checks
import PmxAgents.Lib.FileSystem

/-!
# Archive roots

The path checks of the backup agent and the removal of an archive with its
sidecars. Every path is resolved and has to lie inside a configured root before
it is used; an archive is removed together with four names derived from it.

## Implementation notes

Internal paths are kept as components. Trimming such a path can only shorten its
last component, after which the path is cleaned again. The configuration refuses
relative roots, so a relative root is passed over here.
-/

namespace PmxAgents.Backup

open Lib Lib.FileSystem

/-- A path text, trimmed and cleaned. -/
inductive PathText where
  | blank
  | relative
  | absolute (p : Path)
  deriving DecidableEq

namespace PathText

def parse (s : String) : PathText :=
  let t := Text.trim s.toList
  if t = [] then .blank
  else if t.head? = some '/' then .absolute (clean (components t))
  else .relative

def trimRight (name : String) : String :=
  String.ofList (name.toList.reverse.dropWhile Text.isSpace).reverse

/-- The text of a path, trimmed and cleaned. -/
def ofPath (p : Path) : PathText :=
  match p.getLast? with
  | none => .absolute []
  | some name => .absolute (clean (p.dropLast ++ [trimRight name]))

end PathText

inductive ArchiveError where
  | pathRequired
  | notAbsolute
  | resolve (e : FsError)
  | resolveParent (e : FsError)
  | outsideRoots
  | stat (p : Path) (e : FsError)
  | notDirectory (p : Path)
  | notRegular (p : Path)
  | remove (p : Path) (e : FsError)
  deriving DecidableEq

/-- The relative path from the root to the candidate does not start with two dots. -/
def isPathInsideRoot (root candidate : Path) : Bool :=
  if root <+: candidate then
    match candidate.drop root.length with
    | [] => true
    | c :: _ => !("..".toList.isPrefixOf c.toList)
  else false

def matchingAllowedRoot (fs : Fs) (resolved : Path) : List String → Option Path
  | [] => none
  | root :: rest =>
      match PathText.parse root with
      | .absolute r =>
          let r := (evalSymlinks fs r).toOption.getD r
          if isPathInsideRoot r resolved then some r else matchingAllowedRoot fs resolved rest
      | _ => matchingAllowedRoot fs resolved rest

def ensureInsideAllowedRoots (fs : Fs) (path : PathText) (roots : List String) :
    Except ArchiveError Path :=
  match path with
  | .blank => .error .pathRequired
  | .relative => .error .notAbsolute
  | .absolute p =>
      match evalSymlinks fs p with
      | .error e => .error (.resolve e)
      | .ok resolved =>
          if (matchingAllowedRoot fs resolved roots).isSome then .ok resolved
          else .error .outsideRoots

/-- The nearest directory above the path that exists. -/
def anchor (fs : Fs) (p : Path) : Path :=
  (p.dropLast.inits.reverse.find? fun q => (stat fs q).isOk).getD []

def resolveForCreate (fs : Fs) (cleaned : Path) : Except ArchiveError Path :=
  match evalSymlinks fs cleaned with
  | .ok resolved => .ok resolved
  | .error _ =>
      match evalSymlinks fs (anchor fs cleaned) with
      | .error e => .error (.resolveParent e)
      | .ok resolvedAnchor => .ok (resolvedAnchor ++ cleaned.drop (anchor fs cleaned).length)

def ensureInsideAllowedRootsForCreate (fs : Fs) (path : PathText) (roots : List String) :
    Except ArchiveError Path :=
  match path with
  | .blank => .error .pathRequired
  | .relative => .error .notAbsolute
  | .absolute cleaned =>
      match resolveForCreate fs cleaned with
      | .error e => .error e
      | .ok resolved =>
          if (matchingAllowedRoot fs resolved roots).isSome then .ok cleaned
          else .error .outsideRoots

def ensureWritableDirectory (fs : Fs) (target : PathText) (roots : List String) :
    Except ArchiveError Path := do
  let resolved ← ensureInsideAllowedRoots fs target roots
  match stat fs resolved with
  | .error e => .error (.stat resolved e)
  | .ok .dir => .ok resolved
  | .ok _ => .error (.notDirectory resolved)

def ensureExistingArchive (fs : Fs) (path : PathText) (roots : List String) :
    Except ArchiveError Path := do
  let resolved ← ensureInsideAllowedRoots fs path roots
  match stat fs resolved with
  | .error e => .error (.stat resolved e)
  | .ok (.file _) => .ok resolved
  | .ok _ => .error (.notRegular resolved)

/-- The name without its extension. -/
def stem (name : String) : String :=
  if '.' ∈ name.toList then
    String.ofList (name.toList.reverse.dropWhile (· ≠ '.')).tail.reverse
  else name

def sidecarCandidates (p : Path) : List Path :=
  let name := p.getLast?.getD ""
  [name, name ++ ".notes", name ++ ".log", stem name ++ ".notes", stem name ++ ".log"].map
    fun c => p.dropLast ++ [c]

/-- The loop over the candidates: what does not exist is passed over, every other failure
ends it. -/
def removeCandidates (refuses : Path → Bool) (roots : List String) :
    List Path → List Path → Fs → Fs × Except ArchiveError (List Path)
  | [], deleted, fs => (fs, .ok deleted)
  | candidate :: rest, deleted, fs =>
      match ensureInsideAllowedRootsForCreate fs (.ofPath candidate) roots with
      | .error e => (fs, .error e)
      | .ok inside =>
          match remove refuses fs inside with
          | .ok fs' => removeCandidates refuses roots rest (deleted ++ [inside]) fs'
          | .error .notExist => removeCandidates refuses roots rest deleted fs
          | .error e => (fs, .error (.remove inside e))

def deleteArchiveWithSidecars (refuses : Path → Bool) (roots : List String) (fs : Fs)
    (path : PathText) : Fs × Except ArchiveError (List Path) :=
  match ensureExistingArchive fs path roots with
  | .error e => (fs, .error e)
  | .ok resolved => removeCandidates refuses roots (sidecarCandidates resolved) [] fs

/-! ## Roots and parents -/

section Roots
variable {fs : Fs} {roots : List String} {p q r resolved : Path} {c : String}

theorem isPrefix_of_isPathInsideRoot (h : isPathInsideRoot r q) : r <+: q := by
  rw [isPathInsideRoot] at h
  split_ifs at h with hpre
  exact hpre

theorem matchingAllowedRoot_isSome :
    (matchingAllowedRoot fs resolved roots).isSome ↔
      ∃ r ∈ roots, ∃ p, PathText.parse r = .absolute p ∧
      isPathInsideRoot ((evalSymlinks fs p).toOption.getD p) resolved := by
  induction roots with
  | nil => simp [matchingAllowedRoot]
  | cons r rest ih =>
      rw [matchingAllowedRoot]
      cases hparse : PathText.parse r with
      | blank => simp [hparse, ih]
      | relative => simp [hparse, ih]
      | absolute p =>
          by_cases hin : isPathInsideRoot ((evalSymlinks fs p).toOption.getD p) resolved = true
          · simp [hparse, hin]
          · simp [hparse, hin, ih]

theorem pathExists_of_evalSymlinks (h : evalSymlinks fs p = .ok q) : pathExists fs p = true := by
  have hnode : ∃ n, fs.node q = some n := by
    rcases evalSymlinks_real h with hdir | ⟨_, _, content, -, -, -, hfile⟩
    · exact ⟨_, hdir.node⟩
    · exact ⟨_, hfile⟩
  obtain ⟨n, hn⟩ := hnode
  rw [pathExists, stat, h]
  simp [bind, Except.bind, hn, Except.isOk, Except.toBool]

theorem anchor_of_parent (h : evalSymlinks fs p = .ok r) : anchor fs (p ++ [c]) = p := by
  have hstat : (stat fs p).isOk = true := pathExists_of_evalSymlinks h
  rw [anchor, List.dropLast_concat]
  rcases List.eq_nil_or_concat p with rfl | ⟨d, b, rfl⟩
  · simp [hstat]
  · rw [List.concat_eq_append] at hstat ⊢
    simp [List.inits_append, hstat]

end Roots

/-! ## Paths of directory entries -/

section Entries
variable {fs : Fs} {root : Path} {name : String} {roots : List String}

/-- A name that survives trimming and cleaning. -/
def Tidy (name : String) : Prop := Plain name ∧ PathText.trimRight name = name

theorem clean_append (p : Path) (c : String) (hc : Plain c) :
    clean (p ++ [c]) = clean p ++ [c] := by
  simp [clean, List.foldl_append, hc.1, hc.2.1, hc.2.2]

theorem clean_realDir (h : RealDir fs root) : clean root = root := by
  induction root using List.reverseRecOn with
  | nil => rfl
  | append_singleton p c ih =>
      obtain ⟨hp, hc, -⟩ := realDir_append.mp h
      rw [clean_append p c hc, ih hp]

theorem ofPath_entry (h : RealDir fs root) (hname : Tidy name) :
    PathText.ofPath (root ++ [name]) = .absolute (root ++ [name]) := by
  simp only [PathText.ofPath, List.getLast?_concat, List.dropLast_concat, hname.2]
  rw [clean_append root name hname.1, clean_realDir h]

theorem ensureInsideAllowedRoots_ok {p q : Path}
    (h : ensureInsideAllowedRoots fs (.absolute p) roots = .ok q) : evalSymlinks fs p = .ok q := by
  simp only [ensureInsideAllowedRoots] at h
  split at h
  · cases h
  · rename_i hq
    split at h
    · cases h
      exact hq
    · cases h

/-- What the directory check returns is a directory without links. -/
theorem ensureWritableDirectory_realDir {target : PathText}
    (h : ensureWritableDirectory fs target roots = .ok root) : RealDir fs root := by
  rw [ensureWritableDirectory, Checks.bind_eq_ok] at h
  obtain ⟨resolved, hres, hdir⟩ := h
  split at hdir
  · cases hdir
  · rename_i hstat
    cases hdir
    cases target with
    | blank => cases hres
    | relative => cases hres
    | absolute p =>
        rcases evalSymlinks_real (ensureInsideAllowedRoots_ok hres) with hreal | hfile
        · exact hreal
        · obtain ⟨q, c, content, rfl, hc, hq, hnode⟩ := hfile
          rw [stat, evalSymlinks_file hq hc hnode] at hstat
          simp [bind, Except.bind, hnode] at hstat
  · cases hdir

theorem ensureExistingArchive_entry {p : Path} (hroot : RealDir fs root) (hname : Tidy name)
    (hnode : ∀ n, fs.node (root ++ [name]) = some n → ∃ content, n = .file content)
    (h : ensureExistingArchive fs (.ofPath (root ++ [name])) roots = .ok p) :
    p = root ++ [name] := by
  rw [ofPath_entry hroot hname] at h
  rw [ensureExistingArchive, Checks.bind_eq_ok] at h
  obtain ⟨resolved, hres, hfile⟩ := h
  have heval := ensureInsideAllowedRoots_ok hres
  have hresolved : resolved = root ++ [name] := by
    cases hn : fs.node (root ++ [name]) with
    | none =>
        rw [evalSymlinks_missing hroot hname.1 hn] at heval
        cases heval
    | some n =>
        obtain ⟨content, rfl⟩ := hnode n hn
        rw [evalSymlinks_file hroot hname.1 hn] at heval
        cases heval
        rfl
  split at hfile
  · cases hfile
  · cases hfile
    exact hresolved
  · cases hfile

theorem ensureForCreate_ok {path : PathText} {p : Path}
    (h : ensureInsideAllowedRootsForCreate fs path roots = .ok p) : path = .absolute p := by
  unfold ensureInsideAllowedRootsForCreate at h
  split at h
  · cases h
  · cases h
  · split at h
    · cases h
    · split at h
      · cases h
        rfl
      · cases h

theorem sidecarCandidates_entry :
    sidecarCandidates (root ++ [name]) =
      [name, name ++ ".notes", name ++ ".log", stem name ++ ".notes", stem name ++ ".log"].map
        fun c => root ++ [c] := by
  simp [sidecarCandidates]

end Entries

/-! ## What a removal touches -/

section Removal
variable {refuses : Path → Bool} {roots : List String} {root : Path} {fs fs' : Fs}

/-- The loop over tidy entries of a real directory removes candidates only, and on success
none of them is left. -/
theorem removeCandidates_spec {names : List String} {deleted : List Path}
    {r : Except ArchiveError (List Path)} (hroot : RealDir fs root)
    (hnames : ∀ c ∈ names, Tidy c)
    (h : removeCandidates refuses roots (names.map fun c => root ++ [c]) deleted fs = (fs', r)) :
    RealDir fs' root ∧ OnlyRemoved (fun p => ∃ c ∈ names, p = root ++ [c]) fs fs' ∧
      ((∃ d, r = .ok d) → ∀ c ∈ names, fs'.node (root ++ [c]) = none) := by
  induction names generalizing fs deleted with
  | nil =>
      cases h
      exact ⟨hroot, .refl _ _, by simp⟩
  | cons c rest ih =>
      have hc : Tidy c := hnames c List.mem_cons_self
      have hrest : ∀ c ∈ rest, Tidy c := fun c' hc' => hnames c' (List.mem_cons_of_mem _ hc')
      have hmono : ∀ p, (∃ c' ∈ rest, p = root ++ [c']) → ∃ c' ∈ c :: rest, p = root ++ [c'] :=
        fun p ⟨c', hc', hp⟩ => ⟨c', List.mem_cons_of_mem _ hc', hp⟩
      rw [List.map_cons, removeCandidates, ofPath_entry hroot hc] at h
      split at h
      · cases h
        exact ⟨hroot, .refl _ _, nofun⟩
      · rename_i inside hinside
        have hpath := ensureForCreate_ok hinside
        cases hpath
        split at h
        · rename_i fs₁ hrem
          have hfs₁ := remove_entry hroot hrem
          subst hfs₁
          obtain ⟨hreal, honly, hgone⟩ := ih (hroot.erase List.prefix_rfl) hrest h
          have herase := onlyRemoved_erase fs (p := root ++ [c]) (by simp)
          refine ⟨hreal, (herase.mono ?_).trans (honly.mono hmono), fun hr c' hc' => ?_⟩
          · rintro p rfl
            exact ⟨c, List.mem_cons_self, rfl⟩
          · rcases List.mem_cons.mp hc' with rfl | hc'
            · exact honly.node_none (node_erase_self (by simp))
            · exact hgone hr c' hc'
        · rename_i hrem
          obtain ⟨hreal, honly, hgone⟩ := ih hroot hrest h
          refine ⟨hreal, honly.mono hmono, fun hr c' hc' => ?_⟩
          rcases List.mem_cons.mp hc' with rfl | hc'
          · exact honly.node_none (remove_notExist hroot hrem)
          · exact hgone hr c' hc'
        · cases h
          exact ⟨hroot, .refl _ _, nofun⟩

/-- Removing a regular entry of a real directory removes it and names derived from it. -/
theorem deleteArchiveWithSidecars_spec {name : String} {r : Except ArchiveError (List Path)}
    (hroot : RealDir fs root)
    (htidy : ∀ c, root ++ [c] ∈ sidecarCandidates (root ++ [name]) → Tidy c)
    (hnode : ∀ n, fs.node (root ++ [name]) = some n → ∃ content, n = .file content)
    (h : deleteArchiveWithSidecars refuses roots fs (.ofPath (root ++ [name])) = (fs', r)) :
    RealDir fs' root ∧ OnlyRemoved (· ∈ sidecarCandidates (root ++ [name])) fs fs' ∧
      ((∃ d, r = .ok d) → fs'.node (root ++ [name]) = none) := by
  have hself : root ++ [name] ∈ sidecarCandidates (root ++ [name]) := by
    simp [sidecarCandidates]
  unfold deleteArchiveWithSidecars at h
  split at h
  · cases h
    exact ⟨hroot, .refl _ _, nofun⟩
  · rename_i resolved hres
    have hresolved := ensureExistingArchive_entry hroot (htidy name hself) hnode hres
    subst hresolved
    simp only [sidecarCandidates_entry] at h htidy ⊢
    obtain ⟨hreal, honly, hgone⟩ := removeCandidates_spec hroot
      (fun c hc => htidy c (List.mem_map_of_mem hc)) h
    refine ⟨hreal, honly.mono fun p hp => ?_, fun hr => hgone hr name List.mem_cons_self⟩
    obtain ⟨c, hc, rfl⟩ := hp
    exact List.mem_map_of_mem hc

end Removal

end PmxAgents.Backup
