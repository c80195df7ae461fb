import PmxAgents.Backup.Archive
import PmxAgents.Lib.FileOpen

/-!
# Paths for new files

A file that is pulled to the host is created at a path that has been checked against the
configured roots. The check resolves the path, or what exists of it with the rest put
behind; the file is then opened by the path as it was given.

The two agree on everything but one case. A last component that is a link to nothing does
not exist for the check and stays as it is, while opening the path follows the link and
creates the file where it leads.
-/

namespace PmxAgents.Backup

open Lib Lib.FileSystem

def ensurePathForCreate (fs : Fs) (path : String) (roots : List String) :
    Except ArchiveError Path :=
  ensureInsideAllowedRootsForCreate fs (PathText.parse path) roots

/-- The place lies in the directory that one of the roots leads to. -/
def InsideRoots (fs : Fs) (roots : List String) (q : Path) : Prop :=
  ∃ root ∈ roots, ∃ r, PathText.parse root = .absolute r ∧
    (evalSymlinks fs r).toOption.getD r <+: q

/-- The last component of the path is a link to nothing, and a file to write is where the text of
the link leads. -/
def Landing (fs : Fs) (links : ℕ) (path : String) (q : Path) : Prop :=
  ∃ d c r left target, PathText.parse path = .absolute (d ++ [c]) ∧
    follow fs links [] d = .ok (r, left + 1) ∧ fs.node r = some .dir ∧
    fs.node (r ++ [c]) = some (.symlink target) ∧ pathExists fs (d ++ [c]) = false ∧
    linkCreate fs left r target = .ok q

section Paths
variable {fs : Fs} {roots : List String} {p q r : Path} {c : String}

theorem plain_clean (cs : List String) : ∀ c ∈ clean cs, Plain c := by
  have hstep : ∀ (cs : List String) (p : Path), (∀ c ∈ p, Plain c) →
      ∀ c ∈ cs.foldl (fun p c => if c = "" ∨ c = "." then p
        else if c = ".." then p.dropLast else p ++ [c]) p, Plain c := by
    intro cs
    induction cs with
    | nil => exact fun p hp => hp
    | cons a cs ih =>
        intro p hp
        refine ih _ ?_
        beta_reduce
        split_ifs with hskip hup
        · exact hp
        · exact fun c hc => hp c (List.mem_of_mem_dropLast hc)
        · intro c hc
          rcases List.mem_append.mp hc with hc | hc
          · exact hp c hc
          · obtain rfl := List.mem_singleton.mp hc
            exact ⟨fun h => hskip (Or.inl h), fun h => hskip (Or.inr h), hup⟩
  exact hstep cs [] nofun

theorem plain_of_absolute {path : String} (h : PathText.parse path = .absolute p) :
    ∀ c ∈ p, Plain c := by
  rw [PathText.parse] at h
  split_ifs at h
  obtain rfl := PathText.absolute.inj h
  exact plain_clean _

theorem insideRoots_of_matching (h : (matchingAllowedRoot fs q roots).isSome) :
    InsideRoots fs roots q := by
  obtain ⟨root, hroot, r, hparse, hinside⟩ := matchingAllowedRoot_isSome.mp h
  exact ⟨root, hroot, r, hparse, isPrefix_of_isPathInsideRoot hinside⟩

/-- An accepted path is absolute, and what it resolves to for the check is inside a root. -/
theorem ensurePathForCreate_eq_ok {path : String}
    (h : ensurePathForCreate fs path roots = .ok p) :
    PathText.parse path = .absolute p ∧ ∃ resolved, resolveForCreate fs p = .ok resolved ∧
      InsideRoots fs roots resolved := by
  have habs : PathText.parse path = .absolute p := ensureForCreate_ok h
  rw [ensurePathForCreate, habs, ensureInsideAllowedRootsForCreate] at h
  cases hresolve : resolveForCreate fs p with
  | error e => simp only [hresolve] at h; cases h
  | ok resolved =>
      simp only [hresolve] at h
      split_ifs at h with hmatch
      exact ⟨habs, resolved, rfl, insideRoots_of_matching hmatch⟩

end Paths

/-! ## Opening an accepted path -/

section Opening
variable {fs : Fs} {roots : List String} {path : String} {links : ℕ} {p q : Path}

/-- What is opened is the place that was checked, or where a link to nothing leads. -/
theorem opened_cases {resolved : Path} (hlinks : links ≤ 255)
    (habs : PathText.parse path = .absolute p) (hresolve : resolveForCreate fs p = .ok resolved)
    (hopen : openCreate fs links p = .ok q) : q = resolved ∨ Landing fs links path q := by
  rcases List.eq_nil_or_concat p with rfl | ⟨d, c, rfl⟩
  · rw [openCreate, walkCreate, scanCreate] at hopen
    cases hopen
  · rw [List.concat_eq_append] at *
    have hc : Plain c := plain_of_absolute habs c (by simp)
    obtain ⟨r, left, hfollow, hdir, hentry⟩ := (walkCreate_append realDir_nil).mp hopen
    have hparent : evalSymlinks fs d = .ok r := walk_of_follow hfollow hlinks
    rw [resolveForCreate] at hresolve
    cases heval : evalSymlinks fs (d ++ [c]) with
    | ok found =>
        -- what exists is what is opened
        simp only [heval] at hresolve
        obtain rfl := Except.ok.inj hresolve
        exact Or.inl (walkCreate_eq_walk hopen heval)
    | error e =>
        have hanchor : anchor fs (d ++ [c]) = d := anchor_of_parent hparent
        simp only [heval, hanchor, hparent, List.drop_left] at hresolve
        obtain rfl := Except.ok.inj hresolve
        rcases (walkCreate_entry hc).mp hentry with ⟨-, rfl⟩ | ⟨target, rest, hlink, rfl, hcreate⟩
        · exact Or.inl rfl
        · refine Or.inr ⟨d, c, r, rest, target, habs, hfollow, hdir, hlink, ?_, hcreate⟩
          rw [pathExists, stat, heval]
          rfl

theorem openCreate_of_landing (habs : PathText.parse path = .absolute p)
    (h : Landing fs links path q) : openCreate fs links p = .ok q := by
  obtain ⟨d, c, r, left, target, hpath, hfollow, hdir, hlink, -, hcreate⟩ := h
  obtain rfl := PathText.absolute.inj (habs.symm.trans hpath)
  have hc : Plain c := plain_of_absolute hpath c (by simp)
  refine (walkCreate_append realDir_nil).mpr ⟨r, left + 1, hfollow, hdir, ?_⟩
  exact (walkCreate_entry hc).mpr (Or.inr ⟨target, left, hlink, rfl, hcreate⟩)

end Opening

/-- A file that is opened by an accepted path is inside a root exactly if a link to nothing at the
end of the path leads into one. -/
theorem opened_inside_iff (fs : Fs) (roots : List String) (path : String) (p : Path) (links : ℕ)
    (hlinks : links ≤ 255) (haccepted : ensurePathForCreate fs path roots = .ok p) :
    (∀ q, openCreate fs links p = .ok q → InsideRoots fs roots q) ↔
      ∀ q, Landing fs links path q → InsideRoots fs roots q := by
  obtain ⟨habs, resolved, hresolve, hinside⟩ := ensurePathForCreate_eq_ok haccepted
  constructor
  · exact fun h q hlanding => h q (openCreate_of_landing habs hlanding)
  · intro h q hopen
    rcases opened_cases hlinks habs hresolve hopen with rfl | hlanding
    · exact hinside
    · exact h q hlanding

/-! ## A link among the archives -/

/-- A host with a directory of archives, which has the given entries. -/
def archiveFs (entries : List (String × Node)) : Fs :=
  [(["srv"], .dir), (["etc"], .dir), (["etc", "cron.d"], .dir)] ++
    entries.map fun e => (["srv", e.1], e.2)

/-- A new archive in the directory is created there. -/
theorem opened_inside_newArchive :
    ensurePathForCreate (archiveFs []) "/srv/new.vma" ["/srv"] = .ok ["srv", "new.vma"] ∧
      ∀ q, openCreate (archiveFs []) 40 ["srv", "new.vma"] = .ok q →
        InsideRoots (archiveFs []) ["/srv"] q := by
  have haccepted : ensurePathForCreate (archiveFs []) "/srv/new.vma" ["/srv"] =
      .ok ["srv", "new.vma"] := by
    decide
  refine ⟨haccepted, (opened_inside_iff (archiveFs []) ["/srv"] "/srv/new.vma" ["srv", "new.vma"] 40
    (by decide) haccepted).mpr ?_⟩
  rintro q ⟨d, c, r, left, target, hpath, hfollow, -, hlink, -⟩
  have hparse : PathText.parse "/srv/new.vma" = .absolute (["srv"] ++ ["new.vma"]) := by
    decide
  have hsplit : ["srv"] ++ ["new.vma"] = d ++ [c] :=
    PathText.absolute.inj (hparse.symm.trans hpath)
  obtain ⟨rfl, hname⟩ := List.append_inj' hsplit rfl
  obtain rfl : "new.vma" = c := List.singleton_injective hname
  have hsrv : follow (archiveFs []) 40 [] ["srv"] = .ok (["srv"], 40) := by decide
  obtain ⟨rfl, -⟩ : ["srv"] = r ∧ 40 = left + 1 := by
    simpa using hsrv.symm.trans hfollow
  cases hlink

/-- A link with the name of the new archive that leads out of the directory. -/
def plantedLink : List (String × Node) := [("new.vma", .symlink "/etc/cron.d/job")]

/-- The path is accepted, and the file is created outside. -/
theorem plantedLink_escapes :
    ensurePathForCreate (archiveFs plantedLink) "/srv/new.vma" ["/srv"] =
        .ok ["srv", "new.vma"] ∧
      openCreate (archiveFs plantedLink) 40 ["srv", "new.vma"] = .ok ["etc", "cron.d", "job"] ∧
      ¬ InsideRoots (archiveFs plantedLink) ["/srv"] ["etc", "cron.d", "job"] := by
  refine ⟨by decide, by decide, ?_⟩
  rintro ⟨root, hroot, r, hparse, hprefix⟩
  obtain rfl := List.mem_singleton.mp hroot
  have hsrv : PathText.parse "/srv" = .absolute ["srv"] := by decide
  obtain rfl := PathText.absolute.inj (hsrv.symm.trans hparse)
  exact absurd hprefix (by decide)

end PmxAgents.Backup
