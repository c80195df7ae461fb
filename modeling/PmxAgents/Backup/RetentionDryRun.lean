import PmxAgents.Backup.RetentionSafety

/-!
# The dry run and the live run

The list of files to delete is made before anything is deleted. In the listing the
sidecars of an archive stand next to it, and a deletion takes sidecars along: a file
of the list may be gone when its turn comes, and then the run ends with an error in
the middle of the list.
-/

namespace PmxAgents.Backup

open Lib Lib.FileSystem

/-! ## Entries of an allowed directory -/

section Allowed
variable {fs : Fs} {root : Path} {name : String} {roots : List String}

theorem isPathInsideRoot_entry {r : Path} (h : isPathInsideRoot r root)
    (hname : name.toList.head? ≠ some '.') : isPathInsideRoot r (root ++ [name]) := by
  rw [isPathInsideRoot] at h ⊢
  split_ifs at h with hpre
  obtain ⟨t, rfl⟩ := hpre
  rw [if_pos ((List.prefix_append r t).trans (List.prefix_append _ _))]
  rw [List.drop_left] at h
  rw [List.append_assoc, List.drop_left]
  cases t with
  | cons c t => exact h
  | nil =>
      cases hlist : name.toList with
      | nil => simp [hlist]
      | cons d rest =>
          have hd : '.' ≠ d := by simpa [hlist, eq_comm] using hname
          simp [hlist, List.isPrefixOf, hd]

/-- The entries of an allowed directory are allowed. -/
theorem matchingAllowedRoot_entry (hallowed : (matchingAllowedRoot fs root roots).isSome)
    (hname : name.toList.head? ≠ some '.') :
    (matchingAllowedRoot fs (root ++ [name]) roots).isSome := by
  obtain ⟨r, hr, p, hparse, hin⟩ := matchingAllowedRoot_isSome.mp hallowed
  exact matchingAllowedRoot_isSome.mpr ⟨r, hr, p, hparse, isPathInsideRoot_entry hin hname⟩

theorem allowed_of_ensureWritableDirectory {target : PathText}
    (h : ensureWritableDirectory fs target roots = .ok root) :
    (matchingAllowedRoot fs root roots).isSome := by
  rw [ensureWritableDirectory, Checks.bind_eq_ok] at h
  obtain ⟨resolved, hres, hdir⟩ := h
  have hresolved : resolved = root := by
    split at hdir
    · cases hdir
    · exact Except.ok.inj hdir
    · cases hdir
  subst hresolved
  cases target with
  | blank => cases hres
  | relative => cases hres
  | absolute p =>
      simp only [ensureInsideAllowedRoots] at hres
      split at hres
      · cases hres
      · split_ifs at hres with hallowed
        obtain rfl := Except.ok.inj hres
        exact hallowed

end Allowed

/-! ## One deletion -/

section Deletion
variable {fs : Fs} {root : Path} {name c : String} {roots : List String} {refuses : Path → Bool}

theorem ensureExistingArchive_file {content : List UInt8} (hroot : RealDir fs root)
    (hname : Tidy name) (hallowed : (matchingAllowedRoot fs (root ++ [name]) roots).isSome)
    (hnode : fs.node (root ++ [name]) = some (.file content)) :
    ensureExistingArchive fs (.ofPath (root ++ [name])) roots = .ok (root ++ [name]) := by
  have heval := evalSymlinks_file hroot hname.1 hnode
  rw [ofPath_entry hroot hname, ensureExistingArchive]
  simp [ensureInsideAllowedRoots, heval, hallowed, stat, hnode, bind, Except.bind]

theorem ensureExistingArchive_missing (hroot : RealDir fs root) (hname : Tidy name)
    (hnode : fs.node (root ++ [name]) = none) :
    ensureExistingArchive fs (.ofPath (root ++ [name])) roots = .error (.resolve .notExist) := by
  rw [ofPath_entry hroot hname, ensureExistingArchive]
  simp [ensureInsideAllowedRoots, evalSymlinks_missing hroot hname.1 hnode, bind, Except.bind]

theorem remove_present {n : Node} (hroot : RealDir fs root)
    (hremoves : refuses (root ++ [c]) = false) (hnode : fs.node (root ++ [c]) = some n)
    (hempty : n = .dir → readDir fs (root ++ [c]) = []) :
    remove refuses fs (root ++ [c]) = .ok (fs.erase (root ++ [c])) := by
  have hfull : ¬(n = .dir ∧ readDir fs (root ++ [c]) ≠ []) := fun h => h.2 (hempty h.1)
  simp only [remove_realDir refuses hroot, hnode, if_neg hfull, hremoves, Bool.false_eq_true,
    if_false]

theorem remove_missing (hroot : RealDir fs root) (hnode : fs.node (root ++ [c]) = none) :
    remove refuses fs (root ++ [c]) = .error .notExist := by
  rw [remove_realDir refuses hroot, hnode]

end Deletion

/-- Between the two file systems exactly the entries that satisfy `D` are gone. -/
def ExactlyRemoved (D : Path → Prop) (fs fs' : Fs) : Prop :=
  ∀ p, (D p → fs'.node p = none) ∧ (¬ D p → fs'.node p = fs.node p)

section ExactlyRemoved
variable {D D' : Path → Prop} {fs fs' fs'' : Fs}

theorem exactlyRemoved_of_onlyRemoved (h : OnlyRemoved D fs fs')
    (hgone : ∀ p, D p → fs'.node p = none) : ExactlyRemoved D fs fs' :=
  fun p => ⟨hgone p, fun hp => (h p).resolve_right fun hD => hp hD.1⟩

theorem ExactlyRemoved.trans (h : ExactlyRemoved D fs fs') (h' : ExactlyRemoved D' fs' fs'') :
    ExactlyRemoved (fun p => D p ∨ D' p) fs fs'' := by
  intro p
  by_cases hp' : D' p
  · exact ⟨fun _ => (h' p).1 hp', fun hp => absurd (Or.inr hp') hp⟩
  · rw [(h' p).2 hp']
    exact ⟨fun hp => (h p).1 (hp.resolve_right hp'), fun hp => (h p).2 fun hD => hp (Or.inl hD)⟩

theorem ExactlyRemoved.congr (h : ExactlyRemoved D fs fs') (hD : ∀ p, D p ↔ D' p) :
    ExactlyRemoved D' fs fs' :=
  fun p => by
    rw [← hD p]
    exact h p

theorem ExactlyRemoved.onlyRemoved (h : ExactlyRemoved D fs fs') : OnlyRemoved D fs fs' := by
  intro p
  by_cases hp : D p
  · exact Or.inr ⟨hp, (h p).1 hp⟩
  · exact Or.inl ((h p).2 hp)

end ExactlyRemoved

/-! ## Names that end in white space -/

section Trimmed
variable {fs fs' : Fs} {q inside resolved : Path} {c : String} {roots : List String}
  {refuses : Path → Bool}

/-- No white space ends the path. -/
def Trimmed (p : Path) : Prop := ∃ q c, p = q ++ [c] ∧ PathText.trimRight c = c

theorem trimRight_trimRight (name : String) :
    PathText.trimRight (PathText.trimRight name) = PathText.trimRight name := by
  simp only [PathText.trimRight, String.toList_ofList, List.reverse_reverse,
    List.dropWhile_idempotent]

theorem plain_trimRight_append {x ext : String} (h : ext = ".notes" ∨ ext = ".log") :
    Plain (PathText.trimRight (x ++ ext)) := by
  have htrim : PathText.trimRight (x ++ ext) = x ++ ext := by
    rcases h with rfl | rfl <;> simp [PathText.trimRight, String.toList_append, Text.isSpace]
  have hlong : 4 ≤ (x ++ ext).toList.length := by
    rcases h with rfl | rfl <;> simp [String.toList_append]
  rw [htrim]
  refine ⟨?_, ?_, ?_⟩ <;> rintro heq <;> rw [heq] at hlong <;> simp at hlong

/-- A directory with an entry is not removed. -/
theorem remove_occupied {n : Node} (hq : RealDir fs q) (hnode : fs.node (q ++ [c]) = some n) :
    remove refuses fs q ≠ .ok fs' := by
  rcases List.eq_nil_or_concat q with rfl | ⟨d, x, rfl⟩
  · exact nofun
  · rw [List.concat_eq_append] at hq hnode ⊢
    obtain ⟨hd, -, hdir⟩ := realDir_append.mp hq
    have hfull : readDir fs (d ++ [x]) ≠ [] := List.ne_nil_of_mem (mem_readDir.mpr hnode)
    simp [remove_realDir refuses hd, hdir, hfull]

/-- Cleaning drops a last component that is no name, or goes one directory up. -/
theorem clean_of_not_plain (hq : RealDir fs q) (hc : ¬ Plain c) :
    clean (q ++ [c]) = q ∨ clean (q ++ [c]) = q.dropLast := by
  have hstep : clean (q ++ [c]) = if c = "" ∨ c = "." then clean q
      else if c = ".." then (clean q).dropLast else clean q ++ [c] := by
    simp [clean, List.foldl_append]
  rw [hstep, clean_realDir hq]
  split_ifs with hskip hup
  · exact Or.inl rfl
  · exact Or.inr rfl
  · exact absurd ⟨fun h => hskip (Or.inl h), fun h => hskip (Or.inr h), hup⟩ hc

/-- What a round of the loop removes does not end in white space. The path is trimmed first, and
what is left of a name of white space is a directory that is not empty. -/
theorem remove_trimmed (hq : RealDir fs q)
    (hc : Plain (PathText.trimRight c) ∨ (fs.node (q ++ [c])).isSome)
    (hinside : ensureInsideAllowedRootsForCreate fs (.ofPath (q ++ [c])) roots = .ok inside)
    (hremove : remove refuses fs inside = .ok fs') :
    RealDir fs' q ∧ OnlyRemoved Trimmed fs fs' := by
  obtain rfl : clean (q ++ [PathText.trimRight c]) = inside := by
    have hpath := ensureForCreate_ok hinside
    simp only [PathText.ofPath, List.getLast?_concat, List.dropLast_concat] at hpath
    exact PathText.absolute.inj hpath
  by_cases hplain : Plain (PathText.trimRight c)
  · rw [clean_append q _ hplain, clean_realDir hq] at hremove
    obtain rfl := remove_entry hq hremove
    refine ⟨hq.erase List.prefix_rfl, (onlyRemoved_erase fs (by simp)).mono ?_⟩
    rintro _ rfl
    exact ⟨q, _, rfl, trimRight_trimRight c⟩
  · obtain ⟨n, hn⟩ := Option.isSome_iff_exists.mp (hc.resolve_left hplain)
    rcases clean_of_not_plain hq hplain with heq | heq
    · rw [heq] at hremove
      exact absurd hremove (remove_occupied hq hn)
    · rw [heq] at hremove
      rcases List.eq_nil_or_concat q with rfl | ⟨d, x, rfl⟩
      · exact absurd hremove (remove_occupied hq hn)
      · rw [List.concat_eq_append, List.dropLast_concat] at *
        obtain ⟨hd, -, hdir⟩ := realDir_append.mp hq
        exact absurd hremove (remove_occupied hd hdir)

theorem removeCandidates_trimmed {names : List String} (hq : RealDir fs q)
    (hnames : ∀ c ∈ names, Plain (PathText.trimRight c)) (deleted : List Path) :
    OnlyRemoved Trimmed fs
      (removeCandidates refuses roots (names.map fun c => q ++ [c]) deleted fs).1 := by
  induction names generalizing fs deleted with
  | nil => exact .refl _ _
  | cons c rest ih =>
      obtain ⟨hc, hrest⟩ := List.forall_mem_cons.mp hnames
      rw [List.map_cons, removeCandidates]
      split
      · exact .refl _ _
      · rename_i inside hinside
        split
        · rename_i fs₁ hremove
          obtain ⟨hq₁, hfs₁⟩ := remove_trimmed hq (Or.inl hc) hinside hremove
          exact hfs₁.trans (ih hq₁ hrest _)
        · exact ih hq hrest _
        · exact .refl _ _

/-- An existing archive is a file in a directory without links. -/
theorem ensureExistingArchive_real {path : PathText}
    (h : ensureExistingArchive fs path roots = .ok resolved) :
    ∃ q c content, resolved = q ++ [c] ∧ RealDir fs q ∧
      fs.node resolved = some (.file content) := by
  rw [ensureExistingArchive, Checks.bind_eq_ok] at h
  obtain ⟨r, hres, hfile⟩ := h
  split at hfile
  · cases hfile
  · rename_i content hstat
    obtain rfl := Except.ok.inj hfile
    cases path with
    | blank => cases hres
    | relative => cases hres
    | absolute p =>
        rcases evalSymlinks_real (ensureInsideAllowedRoots_ok hres) with hdir | hentry
        · rw [stat, evalSymlinks_realDir hdir] at hstat
          simp [bind, Except.bind, hdir.node] at hstat
        · obtain ⟨q, c, content', rfl, -, hq, hnode⟩ := hentry
          exact ⟨q, c, content', rfl, hq, hnode⟩
  · cases hfile

theorem deleteArchiveWithSidecars_trimmed (path : PathText) :
    OnlyRemoved Trimmed fs (deleteArchiveWithSidecars refuses roots fs path).1 := by
  rw [deleteArchiveWithSidecars]
  split
  · exact .refl _ _
  · rename_i resolved hres
    obtain ⟨q, c, content, rfl, hq, hnode⟩ := ensureExistingArchive_real hres
    have hrest : ∀ c' ∈ [c ++ ".notes", c ++ ".log", stem c ++ ".notes", stem c ++ ".log"],
        Plain (PathText.trimRight c') := by
      simp [plain_trimRight_append]
    rw [sidecarCandidates_entry, List.map_cons, removeCandidates]
    split
    · exact .refl _ _
    · rename_i inside hinside
      split
      · rename_i fs₁ hremove
        obtain ⟨hq₁, hfs₁⟩ := remove_trimmed hq (Or.inr (by simp [hnode])) hinside hremove
        exact hfs₁.trans (removeCandidates_trimmed hq₁ hrest _)
      · exact removeCandidates_trimmed hq hrest _
      · exact .refl _ _

theorem deleteAll_trimmed (paths deleted : List Path) :
    OnlyRemoved Trimmed fs (deleteAll refuses roots paths deleted fs).1 := by
  induction paths generalizing fs deleted with
  | nil => exact .refl _ _
  | cons path rest ih =>
      have hfirst : OnlyRemoved Trimmed fs
          (deleteArchiveWithSidecars refuses roots fs (.ofPath path)).1 :=
        deleteArchiveWithSidecars_trimmed _
      rw [deleteAll]
      generalize deleteArchiveWithSidecars refuses roots fs (.ofPath path) = first at hfirst ⊢
      rcases first with ⟨fs₁, e | d⟩
      · exact hfirst
      · exact hfirst.trans (ih _)

end Trimmed

/-! ## The loop over the archives -/

/-- The names that the deletions of some archives touch. -/
def Touched (dels : List Archive) (p : Path) : Prop := ∃ a ∈ dels, p ∈ sidecarCandidates a.path

/-- The archives are files. A link among the names that are touched leads into the roots, a
directory is empty, and no root leads through these names. -/
structure Undisturbed (fs : Fs) (roots : List String) (dels : List Archive) : Prop where
  archives : ∀ a ∈ dels, ∃ content, fs.node a.path = some (.file content)
  links : ∀ p, Touched dels p → ∀ q, evalSymlinks fs p = .ok q →
    (matchingAllowedRoot fs q roots).isSome
  directories : ∀ p, Touched dels p → fs.node p = some .dir → readDir fs p = []
  stable : ∀ fs', OnlyRemoved (Touched dels) fs fs' →
    ∀ p, matchingAllowedRoot fs' p roots = matchingAllowedRoot fs p roots

/-- A listed archive whose name does not end in white space. -/
def Named (root : Path) (a : Archive) : Prop :=
  a.path = root ++ [a.fileName] ∧ parseArchiveFileName a.fileName = some { a with path := [] } ∧
    PathText.trimRight a.fileName = a.fileName

section Archives
variable {fs fs' : Fs} {root : Path} {a b : Archive} {c : String} {p : Path}

theorem mem_sidecarCandidates_self (p : Path) (name : String) :
    p ++ [name] ∈ sidecarCandidates (p ++ [name]) := by
  simp [sidecarCandidates]

theorem head?_of_parse (h : parseArchiveFileName c = some a) : c.toList.head? ≠ some '.' := by
  obtain ⟨start, rest, hc, hdot, hany⟩ := parseArchiveFileName_local h
  cases start with
  | nil => cases hany "" [] rfl
  | cons d start =>
      rw [hc]
      rintro hhead
      obtain rfl : d = '.' := by simpa using hhead
      exact hdot List.mem_cons_self

/-- The names that a deletion touches can be used as they are. -/
theorem Named.candidate (h : Named root a) (hc : root ++ [c] ∈ sidecarCandidates a.path) :
    Tidy c ∧ c.toList.head? ≠ some '.' := by
  obtain ⟨hpath, hparse, htrim⟩ := h
  rw [hpath] at hc
  exact ⟨tidy_candidate hparse htrim hc, head?_of_parse (parse_candidate hparse hc)⟩

theorem Named.self_mem (h : Named root a) : root ++ [a.fileName] ∈ sidecarCandidates a.path := by
  rw [h.1]
  exact mem_sidecarCandidates_self root a.fileName

/-- No archive of the list is deleted along with one before it. -/
def Independent (dels : List Archive) : Prop :=
  dels.Pairwise fun a b => b.path ∉ sidecarCandidates a.path

/-- What is there after the deletion of an archive is what the archive does not take along. -/
theorem isSome_after (h : ExactlyRemoved (· ∈ sidecarCandidates a.path) fs fs') :
    (fs'.node b.path).isSome ↔ b.path ∉ sidecarCandidates a.path ∧ (fs.node b.path).isSome := by
  by_cases hmem : b.path ∈ sidecarCandidates a.path
  · simp [(h b.path).1 hmem, hmem]
  · simp [(h b.path).2 hmem, hmem]

end Archives

/-- A run in an allowed directory without links, in which nothing disturbs it. -/
structure Setting (fs₀ : Fs) (root : Path) (roots : List String) (refuses : Path → Bool)
    (dels₀ : List Archive) : Prop where
  real : RealDir fs₀ root
  allowed : (matchingAllowedRoot fs₀ root roots).isSome
  undisturbed : Undisturbed fs₀ roots dels₀
  named : ∀ a ∈ dels₀, Named root a
  removes : ∀ p, refuses p = false

section Deletions
variable {fs₀ fs fs' : Fs} {root : Path} {roots : List String} {refuses : Path → Bool}
  {dels₀ dels : List Archive} {a : Archive} (hset : Setting fs₀ root roots refuses dels₀)
  (hfs : OnlyRemoved (Touched dels₀) fs₀ fs)

include hset hfs

theorem realDir_of_touched : RealDir fs root := by
  refine hset.real.onlyRemoved hfs ?_
  rintro q hq ⟨a, ha, hmem⟩
  rw [(hset.named a ha).1, sidecarCandidates_entry] at hmem
  obtain ⟨c, -, rfl⟩ := List.mem_map.mp hmem
  have hlong := hq.length_le
  rw [List.length_append, List.length_singleton] at hlong
  omega

/-- An archive that is gone ends the run. -/
theorem deleteArchiveWithSidecars_missing (ha : a ∈ dels₀) (hnode : fs.node a.path = none) :
    deleteArchiveWithSidecars refuses roots fs (.ofPath a.path) =
      (fs, .error (.resolve .notExist)) := by
  have hname := (hset.named a ha).candidate (hset.named a ha).self_mem
  rw [(hset.named a ha).1] at hnode ⊢
  rw [deleteArchiveWithSidecars,
    ensureExistingArchive_missing (realDir_of_touched hset hfs) hname.1 hnode]

/-- Every name that is touched passes the check of the path. -/
theorem ensureInside_candidate {c : String} (ha : a ∈ dels₀)
    (hc : root ++ [c] ∈ sidecarCandidates a.path) :
    ensureInsideAllowedRootsForCreate fs (.ofPath (root ++ [c])) roots = .ok (root ++ [c]) := by
  obtain ⟨htidy, hdot⟩ := (hset.named a ha).candidate hc
  have hreal := realDir_of_touched hset hfs
  have hinside : ∃ q, resolveForCreate fs (root ++ [c]) = .ok q ∧
      (matchingAllowedRoot fs₀ q roots).isSome := by
    cases heval : evalSymlinks fs (root ++ [c]) with
    | ok q =>
        refine ⟨q, by rw [resolveForCreate, heval], ?_⟩
        exact hset.undisturbed.links _ ⟨a, ha, hc⟩ q (evalSymlinks_onlyRemoved hfs heval)
    | error e =>
        refine ⟨root ++ [c], ?_, matchingAllowedRoot_entry hset.allowed hdot⟩
        rw [resolveForCreate, heval, anchor_of_parent (evalSymlinks_realDir hreal),
          evalSymlinks_realDir hreal]
        simp
  obtain ⟨q, hresolve, hsome⟩ := hinside
  rw [ofPath_entry hreal htidy, ensureInsideAllowedRootsForCreate]
  simp only [hresolve, hset.undisturbed.stable fs hfs, hsome, if_true]

/-- The loop over names that are touched does not fail. -/
theorem removeCandidates_ok {names : List String} (ha : a ∈ dels₀)
    (hnames : ∀ c ∈ names, root ++ [c] ∈ sidecarCandidates a.path) (deleted : List Path) :
    ∃ fs' d, removeCandidates refuses roots (names.map fun c => root ++ [c]) deleted fs =
      (fs', .ok d) := by
  induction names generalizing fs deleted with
  | nil => exact ⟨fs, deleted, rfl⟩
  | cons c rest ih =>
      obtain ⟨hc, hrest⟩ := List.forall_mem_cons.mp hnames
      have hreal := realDir_of_touched hset hfs
      rw [List.map_cons, removeCandidates, ensureInside_candidate hset hfs ha hc]
      cases hn : fs.node (root ++ [c]) with
      | none =>
          simp only [remove_missing hreal hn]
          exact ih hfs hrest deleted
      | some n =>
          have hempty : n = .dir → readDir fs (root ++ [c]) = [] := by
            rintro rfl
            exact readDir_eq_nil_of_onlyRemoved hfs
              (hset.undisturbed.directories _ ⟨a, ha, hc⟩ (hfs.node_some hn))
          have herase : OnlyRemoved (Touched dels₀) fs (fs.erase (root ++ [c])) := by
            refine (onlyRemoved_erase fs (by simp)).mono ?_
            rintro p rfl
            exact ⟨a, ha, hc⟩
          simp only [remove_present hreal (hset.removes _) hn hempty]
          exact ih (hfs.trans herase) hrest _

/-- An archive that exists is deleted with its sidecars. -/
theorem deleteArchiveWithSidecars_ok (ha : a ∈ dels₀) (hnode : (fs.node a.path).isSome) :
    ∃ fs' d, deleteArchiveWithSidecars refuses roots fs (.ofPath a.path) = (fs', .ok d) ∧
      ExactlyRemoved (· ∈ sidecarCandidates a.path) fs fs' := by
  have hreal := realDir_of_touched hset hfs
  have hpath := (hset.named a ha).1
  obtain ⟨content, hn⟩ : ∃ content, fs.node a.path = some (.file content) := by
    obtain ⟨n, hn⟩ := Option.isSome_iff_exists.mp hnode
    obtain ⟨content, hfile⟩ := hset.undisturbed.archives a ha
    exact ⟨content, hn.trans ((hfs.node_some hn).symm.trans hfile)⟩
  obtain ⟨hself, hdot⟩ := (hset.named a ha).candidate (hset.named a ha).self_mem
  have hmem : ∀ c ∈ [a.fileName, a.fileName ++ ".notes", a.fileName ++ ".log",
      stem a.fileName ++ ".notes", stem a.fileName ++ ".log"],
      root ++ [c] ∈ sidecarCandidates a.path := by
    intro c hc
    rw [hpath, sidecarCandidates_entry]
    exact List.mem_map_of_mem hc
  obtain ⟨fs', d, hrun⟩ := removeCandidates_ok hset hfs ha hmem []
  obtain ⟨-, honly, hgone⟩ := removeCandidates_spec hreal
    (fun c hc => ((hset.named a ha).candidate (hmem c hc)).1) hrun
  have hinside : (matchingAllowedRoot fs (root ++ [a.fileName]) roots).isSome := by
    rw [hset.undisturbed.stable fs hfs]
    exact matchingAllowedRoot_entry hset.allowed hdot
  rw [hpath] at hn ⊢
  refine ⟨fs', d, ?_, ?_⟩
  · rw [deleteArchiveWithSidecars, ensureExistingArchive_file hreal hself hinside hn]
    rw [sidecarCandidates_entry.symm] at hrun
    exact hrun
  · rw [sidecarCandidates_entry]
    refine exactlyRemoved_of_onlyRemoved (honly.mono ?_) ?_
    · rintro p ⟨c, hc, rfl⟩
      exact List.mem_map_of_mem hc
    · intro p hp
      obtain ⟨c, hc, rfl⟩ := List.mem_map.mp hp
      exact hgone ⟨d, rfl⟩ c hc

omit hset in
theorem touched_trans (ha : a ∈ dels₀)
    (h : ExactlyRemoved (· ∈ sidecarCandidates a.path) fs fs') :
    OnlyRemoved (Touched dels₀) fs₀ fs' :=
  hfs.trans (h.onlyRemoved.mono fun _ hp => ⟨a, ha, hp⟩)

theorem deleteAll_ok_iff (hsub : ∀ a ∈ dels, a ∈ dels₀) (deleted : List Path) :
    (∃ fs' d, deleteAll refuses roots (dels.map Archive.path) deleted fs = (fs', .ok d)) ↔
      (∀ a ∈ dels, (fs.node a.path).isSome) ∧ Independent dels := by
  induction dels generalizing fs deleted with
  | nil => exact iff_of_true ⟨fs, deleted, rfl⟩ ⟨nofun, List.Pairwise.nil⟩
  | cons a rest ih =>
      obtain ⟨ha, hrest⟩ := List.forall_mem_cons.mp hsub
      rw [List.map_cons, deleteAll, Independent, List.pairwise_cons]
      by_cases hnode : (fs.node a.path).isSome
      · obtain ⟨fs₁, d, hdelete, hexact⟩ :=
          deleteArchiveWithSidecars_ok hset hfs ha hnode
        rw [hdelete]
        simp only [ih (touched_trans hfs ha hexact) hrest (deleted ++ d), isSome_after hexact,
          List.forall_mem_cons, hnode, true_and]
        constructor
        · rintro ⟨hsome, hind⟩
          exact ⟨fun b hb => (hsome b hb).2, fun b hb => (hsome b hb).1, hind⟩
        · rintro ⟨hsome, hnot, hind⟩
          exact ⟨fun b hb => ⟨hnot b hb, hsome b hb⟩, hind⟩
      · have hnone : fs.node a.path = none := by simpa using hnode
        rw [deleteArchiveWithSidecars_missing hset hfs ha hnone]
        refine iff_of_false (by simp) fun h => ?_
        exact hnode (h.1 a List.mem_cons_self)

/-- A run that does not fail deletes the archives of the list with their sidecars and nothing
else. -/
theorem deleteAll_exact (hsub : ∀ a ∈ dels, a ∈ dels₀) {deleted d : List Path}
    (h : deleteAll refuses roots (dels.map Archive.path) deleted fs = (fs', .ok d)) :
    ExactlyRemoved (Touched dels) fs fs' := by
  induction dels generalizing fs deleted with
  | nil =>
      obtain ⟨rfl, -⟩ := Prod.mk.inj h
      exact fun p => ⟨fun ⟨b, hb, _⟩ => absurd hb List.not_mem_nil, fun _ => rfl⟩
  | cons a rest ih =>
      obtain ⟨ha, hrest⟩ := List.forall_mem_cons.mp hsub
      rw [List.map_cons, deleteAll] at h
      by_cases hnode : (fs.node a.path).isSome
      · obtain ⟨fs₁, d₁, hdelete, hexact⟩ :=
          deleteArchiveWithSidecars_ok hset hfs ha hnode
        rw [hdelete] at h
        exact (hexact.trans (ih (touched_trans hfs ha hexact) hrest h)).congr fun p => by
          simp [Touched]
      · have hnone : fs.node a.path = none := by simpa using hnode
        rw [deleteArchiveWithSidecars_missing hset hfs ha hnone] at h
        cases h

end Deletions

/-! ## The dry run -/

def ApplyParams.withDryRun (params : ApplyParams) (dryRun : Bool) : ApplyParams :=
  { params with dryRun }

/-- The live run deletes what the dry run announces, with the sidecars, and does not report an
error after it has deleted something. -/
def Agrees (S : SortSlice) (refuses : Path → Bool) (fs : Fs) (params : ApplyParams) : Prop :=
  ∀ res, (apply S refuses fs (params.withDryRun true)).2 = .ok res →
    ExactlyRemoved (fun p => ∃ q ∈ res.wouldDelete, p ∈ sidecarCandidates q) fs
        (apply S refuses fs (params.withDryRun false)).1 ∧
      ∀ e, (apply S refuses fs (params.withDryRun false)).2 = .error e →
        ∀ p, (apply S refuses fs (params.withDryRun false)).1.node p = fs.node p

/-- The counts that are not refused. -/
def Policy.Accepted (policy : Policy) : Prop :=
  ¬(policy.keepDailies < 0 ∨ policy.keepWeeklies < 0 ∨ policy.keepMonthlies < 0)

instance (policy : Policy) : Decidable policy.Accepted := inferInstanceAs (Decidable (¬ _))

/-- The loop over the files that are to go. -/
def deletions (S : SortSlice) (refuses : Path → Bool) (fs : Fs) (root : Path)
    (params : ApplyParams) : Fs × Except RetentionError (List Path) :=
  deleteAll refuses params.archiveRoots ((condemned S fs root params).map Archive.path) [] fs

section DryRun
variable {S : SortSlice} {refuses : Path → Bool} {fs : Fs} {params : ApplyParams} {root : Path}

theorem isSome_of_condemned {a : Archive} (ha : a ∈ condemned S fs root params) :
    (fs.node a.path).isSome := by
  obtain ⟨-, ⟨n, hnode, -⟩, -, -⟩ := mem_listing.mp (mem_condemned.mp ha).1
  rw [hnode]
  rfl

theorem agrees_of_error (hdry : ∀ res, (apply S refuses fs (params.withDryRun true)).2 ≠ .ok res) :
    Agrees S refuses fs params :=
  fun res hres => absurd hres (hdry res)

theorem apply_refused (hpolicy : ¬ params.policy.Accepted) :
    apply S refuses fs params = (fs, .error .negativePolicy) := by
  rw [apply]
  exact if_pos (not_not.mp hpolicy)

theorem apply_unresolved {e : ArchiveError} (hpolicy : params.policy.Accepted)
    (hroot : ensureWritableDirectory fs (.parse params.archiveRoot) params.archiveRoots =
      .error e) :
    apply S refuses fs params = (fs, .error (.archive e)) := by
  rw [apply, if_neg hpolicy, hroot]

section Resolved
variable (hpolicy : params.policy.Accepted)
  (hroot : ensureWritableDirectory fs (.parse params.archiveRoot) params.archiveRoots = .ok root)

include hpolicy hroot

theorem apply_resolved : apply S refuses fs params =
    if params.dryRun then (fs, .ok (params.plan root (S.run (listing fs root params.vmidFilter))))
    else
      match deletions S refuses fs root params with
      | (fs', .error e) => (fs', .error e)
      | (fs', .ok deleted) =>
          (fs', .ok { params.plan root
            (S.run (listing fs root params.vmidFilter)) with deleted }) := by
  rw [apply, if_neg hpolicy, hroot]
  simp only [enumerate, (ensureWritableDirectory_realDir hroot).node, if_true]
  rw [plan_wouldDelete]
  rfl

theorem apply_dry : apply S refuses fs (params.withDryRun true) = (fs, .ok
    ((params.withDryRun true).plan root (S.run (listing fs root params.vmidFilter)))) :=
  (@apply_resolved S refuses fs (params.withDryRun true) root hpolicy hroot).trans (if_pos rfl)

/-- The live run fails exactly if the loop over the announced files does, and leaves the files as
the loop does. -/
theorem apply_live :
    (apply S refuses fs (params.withDryRun false)).1 = (deletions S refuses fs root params).1 ∧
      ((∃ e, (apply S refuses fs (params.withDryRun false)).2 = .error e) ↔
        ∃ e, (deletions S refuses fs root params).2 = .error e) := by
  have hlive := @apply_resolved S refuses fs (params.withDryRun false) root hpolicy hroot
  have hsame : deletions S refuses fs root (params.withDryRun false) =
      deletions S refuses fs root params := rfl
  rw [hlive, if_neg (show ¬(params.withDryRun false).dryRun from Bool.false_ne_true), hsame]
  rcases deletions S refuses fs root params with ⟨fs', r⟩
  cases r <;> simp

theorem agrees_resolved : Agrees S refuses fs params ↔
    ExactlyRemoved (Touched (condemned S fs root params)) fs
        (deletions S refuses fs root params).1 ∧
      ∀ e, (deletions S refuses fs root params).2 = .error e →
        ∀ p, (deletions S refuses fs root params).1.node p = fs.node p := by
  have hannounced : ((params.withDryRun true).plan root
      (S.run (listing fs root params.vmidFilter))).wouldDelete =
      (condemned S fs root params).map Archive.path := plan_wouldDelete
  have htouched : ∀ p, (∃ q ∈ (condemned S fs root params).map Archive.path,
      p ∈ sidecarCandidates q) ↔ Touched (condemned S fs root params) p := by
    simp [Touched]
  obtain ⟨hfiles, herror⟩ := @apply_live S refuses fs params root hpolicy hroot
  rw [Agrees, apply_dry hpolicy hroot, hfiles]
  constructor
  · intro h
    obtain ⟨hexact, hclean⟩ := h _ rfl
    rw [hannounced] at hexact
    refine ⟨hexact.congr htouched, fun e he => ?_⟩
    obtain ⟨e', he'⟩ := herror.mpr ⟨e, he⟩
    exact hclean e' he'
  · rintro ⟨hexact, hclean⟩ res hres
    obtain rfl := Except.ok.inj hres
    rw [hannounced]
    refine ⟨hexact.congr fun p => (htouched p).symm, fun e he => ?_⟩
    obtain ⟨e', he'⟩ := herror.mp ⟨e, he⟩
    exact hclean e' he'

/-- A file whose name ends in white space is announced and never deleted. -/
theorem trimmed_of_agrees (h : Agrees S refuses fs params) :
    ∀ a ∈ condemned S fs root params, PathText.trimRight a.fileName = a.fileName := by
  intro a ha
  have hpath := (mem_listing.mp (mem_condemned.mp ha).1).1
  have hgone := (((agrees_resolved hpolicy hroot).mp h).1 a.path).1
    ⟨a, ha, by rw [hpath]; exact mem_sidecarCandidates_self root a.fileName⟩
  have honly : OnlyRemoved Trimmed fs (deletions S refuses fs root params).1 :=
    deleteAll_trimmed _ _
  rcases honly a.path with heq | ⟨⟨q, c, heq, htrim⟩, -⟩
  · have hsome := isSome_of_condemned ha
    rw [← heq, hgone] at hsome
    cases hsome
  · rw [hpath] at heq
    obtain ⟨-, hname⟩ := List.append_inj' heq rfl
    rw [(List.cons.inj hname).1]
    exact htrim

theorem agrees_resolved_iff (hremoves : ∀ p, refuses p = false)
    (hplain : Undisturbed fs params.archiveRoots (condemned S fs root params)) :
    Agrees S refuses fs params ↔
      (∀ a ∈ condemned S fs root params, PathText.trimRight a.fileName = a.fileName) ∧
        Independent (condemned S fs root params) := by
  have hsome : ∀ a ∈ condemned S fs root params, (fs.node a.path).isSome :=
    fun a ha => isSome_of_condemned ha
  have hset : (∀ a ∈ condemned S fs root params, PathText.trimRight a.fileName = a.fileName) →
      Setting fs root params.archiveRoots refuses (condemned S fs root params) := by
    intro htrim
    refine ⟨ensureWritableDirectory_realDir hroot, allowed_of_ensureWritableDirectory hroot,
      hplain, fun a ha => ?_, hremoves⟩
    obtain ⟨hpath, -, hparse, -⟩ := mem_listing.mp (mem_condemned.mp ha).1
    exact ⟨hpath, hparse, htrim a ha⟩
  constructor
  · intro hagrees
    have htrim := trimmed_of_agrees hpolicy hroot hagrees
    obtain ⟨hexact, hclean⟩ := (agrees_resolved hpolicy hroot).mp hagrees
    refine ⟨htrim, by_contra fun hind => ?_⟩
    cases hrun : (deletions S refuses fs root params).2 with
    | ok d =>
        exact hind ((deleteAll_ok_iff (hset htrim) (.refl _ _) (fun _ h => h) []).mp
          ⟨_, d, Prod.ext rfl hrun⟩).2
    | error e =>
        -- the error leaves everything in place, and the first file of the list was to go
        cases hlist : condemned S fs root params with
        | nil => exact hind (hlist ▸ List.Pairwise.nil)
        | cons a rest =>
            have ha : a ∈ condemned S fs root params := hlist ▸ List.mem_cons_self
            have hself := ((hset htrim).named a ha).self_mem
            rw [← ((hset htrim).named a ha).1] at hself
            have hstays := hsome a ha
            rw [← hclean e hrun a.path, (hexact a.path).1 ⟨a, ha, hself⟩] at hstays
            cases hstays
  · rintro ⟨htrim, hind⟩
    obtain ⟨fs', d, hrun⟩ : ∃ fs' d, deletions S refuses fs root params = (fs', .ok d) :=
      (deleteAll_ok_iff (hset htrim) (.refl _ _) (fun _ h => h) []).mpr ⟨hsome, hind⟩
    refine (agrees_resolved hpolicy hroot).mpr ?_
    rw [hrun]
    exact ⟨deleteAll_exact (hset htrim) (.refl _ _) (fun _ h => h) hrun, nofun⟩

end Resolved

/-- Where the files to delete are no links, and links and directories among their sidecars can be
removed, the live run agrees with the dry run exactly if no name of a file to delete ends in white
space and no file to delete is a sidecar of one before it. -/
theorem agrees_iff (S : SortSlice) {refuses : Path → Bool} (hremoves : ∀ p, refuses p = false)
    {fs : Fs} {params : ApplyParams}
    (hplain : ∀ root, ensureWritableDirectory fs (.parse params.archiveRoot)
      params.archiveRoots = .ok root →
        Undisturbed fs params.archiveRoots (condemned S fs root params)) :
    Agrees S refuses fs params ↔
      (params.policy.Accepted → ∀ root, ensureWritableDirectory fs (.parse params.archiveRoot)
        params.archiveRoots = .ok root →
          (∀ a ∈ condemned S fs root params, PathText.trimRight a.fileName = a.fileName) ∧
            Independent (condemned S fs root params)) := by
  by_cases hpolicy : params.policy.Accepted
  · cases hroot : ensureWritableDirectory fs (.parse params.archiveRoot) params.archiveRoots with
    | ok root =>
        rw [agrees_resolved_iff hpolicy hroot hremoves (hplain root hroot)]
        exact ⟨fun h _ root' hroot' => Except.ok.inj hroot' ▸ h, fun h => h hpolicy root rfl⟩
    | error e =>
        have hdry : apply S refuses fs (params.withDryRun true) = (fs, .error (.archive e)) :=
          apply_unresolved hpolicy hroot
        exact iff_of_true (agrees_of_error (by simp [hdry])) (fun _ root hroot' => by cases hroot')
  · have hdry : apply S refuses fs (params.withDryRun true) = (fs, .error .negativePolicy) :=
      apply_refused hpolicy
    exact iff_of_true (agrees_of_error (by simp [hdry])) fun h => absurd h hpolicy

end DryRun

/-! ## A directory with notes -/

theorem realDir_dump {fs : Fs} (h : fs.node ["dump"] = some .dir) : RealDir fs ["dump"] :=
  realDir_append.mpr ⟨realDir_nil, by decide, h⟩

/-- An archive with its log and an empty directory in the place of its notes, and a newer one. -/
def dumpWithLog : Fs :=
  (["dump", "vzdump-qemu-100-2024_01_01-00_00_00.vma.zst.notes"], .dir) ::
    dumpWith ["vzdump-qemu-100-2024_01_02-00_00_00.vma.zst",
      "vzdump-qemu-100-2024_01_01-00_00_00.log", "vzdump-qemu-100-2024_01_01-00_00_00.vma.zst"]

/-- What is to go of `dumpWithLog`. -/
def oldWithLog : List Path :=
  [["dump", "vzdump-qemu-100-2024_01_01-00_00_00.log"],
    ["dump", "vzdump-qemu-100-2024_01_01-00_00_00.vma.zst"]]

theorem condemned_dumpWithLog :
    (condemned insertion dumpWithLog ["dump"] (dumpParams "100" ⟨1, 0, 0⟩)).map Archive.path =
      oldWithLog := by
  decide +kernel

theorem undisturbed_dumpWithLog : Undisturbed dumpWithLog ["/dump"]
    (condemned insertion dumpWithLog ["dump"] (dumpParams "100" ⟨1, 0, 0⟩)) := by
  have htouched : ∀ p, Touched (condemned insertion dumpWithLog ["dump"]
      (dumpParams "100" ⟨1, 0, 0⟩)) p → p ∈ oldWithLog.flatMap sidecarCandidates := by
    rintro p ⟨a, ha, hp⟩
    rw [← condemned_dumpWithLog]
    exact List.mem_flatMap.mpr ⟨a.path, List.mem_map_of_mem ha, hp⟩
  refine ⟨fun a ha => ⟨[], ?_⟩, fun p hp q hq => ?_, fun p hp => ?_, fun fs' hfs p => ?_⟩
  · have hfiles : ∀ p ∈ oldWithLog, dumpWithLog.node p = some (.file []) := by decide +kernel
    exact hfiles a.path (condemned_dumpWithLog ▸ List.mem_map_of_mem ha)
  · have hinside : ∀ p ∈ oldWithLog.flatMap sidecarCandidates,
        ∀ q ∈ (evalSymlinks dumpWithLog p).toOption,
          (matchingAllowedRoot dumpWithLog q ["/dump"]).isSome := by decide +kernel
    exact hinside p (htouched p hp) q (by rw [hq]; rfl)
  · have hempty : ∀ p ∈ oldWithLog.flatMap sidecarCandidates,
        dumpWithLog.node p = some .dir → readDir dumpWithLog p = [] := by decide +kernel
    exact hempty p (htouched p hp)
  · have hlong : ∀ p ∈ oldWithLog.flatMap sidecarCandidates, 1 < p.length := by decide +kernel
    have hreal : RealDir fs' ["dump"] := (realDir_dump rfl).onlyRemoved hfs fun q hq hp =>
      absurd hq.length_le (Nat.not_le.mpr (hlong q (htouched q hp)))
    have hparse : PathText.parse "/dump" = .absolute ["dump"] := by decide
    simp only [matchingAllowedRoot, hparse, evalSymlinks_realDir hreal,
      evalSymlinks_realDir (realDir_dump (show dumpWithLog.node ["dump"] = some .dir from rfl))]

theorem dumpWithLog_agrees :
    Agrees insertion (fun _ => false) dumpWithLog (dumpParams "100" ⟨1, 0, 0⟩) := by
  have hroot : ∀ root, ensureWritableDirectory dumpWithLog
      (.parse (dumpParams "100" ⟨1, 0, 0⟩).archiveRoot) (dumpParams "100" ⟨1, 0, 0⟩).archiveRoots =
        .ok root → root = ["dump"] :=
    fun root h => (Except.ok.inj h).symm
  refine (agrees_iff insertion (fun _ => rfl) fun root h => ?_).mpr fun _ root h => ?_
  · obtain rfl := hroot root h
    exact undisturbed_dumpWithLog
  · obtain rfl := hroot root h
    refine ⟨by decide +kernel, ?_⟩
    rw [Independent, ← List.pairwise_map (R := fun p q => q ∉ sidecarCandidates p),
      condemned_dumpWithLog]
    decide +kernel

/-- An archive with its notes, and a newer one. -/
def dumpWithNotes : Fs :=
  dumpWith ["vzdump-qemu-100-2024_01_02-00_00_00.vma.zst",
    "vzdump-qemu-100-2024_01_01-00_00_00.vma.zst",
    "vzdump-qemu-100-2024_01_01-00_00_00.vma.zst.notes"]

def runWithNotes (dryRun : Bool) : Fs × Except RetentionError ApplyResult :=
  apply insertion (fun _ => false) dumpWithNotes ((dumpParams "100" ⟨1, 0, 0⟩).withDryRun dryRun)

/-- The dry run announces the old archive and its notes. The live run deletes the archive with its
notes and then fails because the notes are gone. -/
theorem dumpWithNotes_fails :
    (runWithNotes true).2.map ApplyResult.wouldDelete = .ok
        [["dump", "vzdump-qemu-100-2024_01_01-00_00_00.vma.zst"],
          ["dump", "vzdump-qemu-100-2024_01_01-00_00_00.vma.zst.notes"]] ∧
      ¬ Agrees insertion (fun _ => false) dumpWithNotes (dumpParams "100" ⟨1, 0, 0⟩) := by
  have hruns : (runWithNotes true).2.isOk ∧ (runWithNotes false).2.isOk = false ∧
      (runWithNotes false).1.node ["dump", "vzdump-qemu-100-2024_01_01-00_00_00.vma.zst"] ≠
        dumpWithNotes.node ["dump", "vzdump-qemu-100-2024_01_01-00_00_00.vma.zst"] := by
    decide +kernel
  obtain ⟨hok, hfailed, hdeleted⟩ := hruns
  refine ⟨by decide +kernel, fun hagrees => ?_⟩
  cases hdry : (runWithNotes true).2 with
  | error e =>
      rw [hdry] at hok
      cases hok
  | ok res =>
      cases hlive : (runWithNotes false).2 with
      | ok _ =>
          rw [hlive] at hfailed
          cases hfailed
      | error e => exact hdeleted ((hagrees res hdry).2 e hlive _)

end PmxAgents.Backup
