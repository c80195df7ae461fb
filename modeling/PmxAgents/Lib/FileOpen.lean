import PmxAgents.Lib.FileSystem

/-!
# Opening a file to write it

A file that is opened to be created is looked up like any other, except that the last
component may be missing: the file is then made there. Links are followed, also a last one
that leads to nothing, and what is made is where that link leads.

The place is determined by the directory that the path without its last component leads
to, by the entry there, and if that is a link by where its text leads from there.
-/

namespace PmxAgents.Lib.FileSystem

/-- Follow the components from a directory up to the first link or the file to write. -/
def scanCreate (fs : Fs) (dest : Path) : List String → Scan
  | [] => .fail .refused
  | c :: rest =>
      if c = "" ∨ c = "." then scanCreate fs dest rest
      else if c = ".." then scanCreate fs dest.dropLast rest
      else
        match fs.node (dest ++ [c]) with
        | none => if rest = [] then .done (dest ++ [c]) else .fail .notExist
        | some .dir => scanCreate fs (dest ++ [c]) rest
        | some (.file _) => if rest = [] then .done (dest ++ [c]) else .fail .notDirectory
        | some (.symlink target) =>
            .link (if target.toList.head? = some '/' then [] else dest)
              (components target.toList ++ rest)

/-- Where a file is created or truncated, with the given number of links left. -/
def walkCreate (fs : Fs) (links : ℕ) (dest : Path) (rest : List String) : Except FsError Path :=
  match scanCreate fs dest rest with
  | .done p => .ok p
  | .fail e => .error e
  | .link dest' rest' =>
      match links with
      | 0 => .error .tooManyLinks
      | links' + 1 => walkCreate fs links' dest' rest'

/-- Open a file to create or truncate it; its place, if that succeeds. -/
def openCreate (fs : Fs) (links : ℕ) (p : Path) : Except FsError Path := walkCreate fs links [] p

/-- Follow the components as `walk` does, and tell how many links are left. -/
def follow (fs : Fs) (links : ℕ) (dest : Path) (rest : List String) : Except FsError (Path × ℕ) :=
  match scan fs dest rest with
  | .done p => .ok (p, links)
  | .fail e => .error e
  | .link dest' rest' =>
      match links with
      | 0 => .error .tooManyLinks
      | links' + 1 => follow fs links' dest' rest'

/-- Where the text of a link in a directory leads to a file to write. -/
def linkCreate (fs : Fs) (links : ℕ) (dir : Path) (target : String) : Except FsError Path :=
  walkCreate fs links (if target.toList.head? = some '/' then [] else dir)
    (components target.toList)

section Walks
variable {fs : Fs} {dest p q r : Path} {rest : List String} {c : String} {links left : ℕ}

/-- A longer allowance of links leads to the same place. -/
theorem walk_of_follow (h : follow fs links dest rest = .ok (p, left)) {more : ℕ}
    (hmore : links ≤ more) : walk fs more dest rest = .ok p := by
  rw [walk.eq_def]
  fun_induction follow fs links dest rest generalizing more with
  | case1 links dest rest p' hscan =>
      rw [hscan]
      exact congrArg Except.ok (Prod.mk.inj (Except.ok.inj h)).1
  | case2 => cases h
  | case3 => cases h
  | case4 dest rest d r hscan links ih =>
      obtain ⟨more, rfl⟩ : ∃ n, more = n + 1 := ⟨more - 1, by omega⟩
      rw [hscan]
      dsimp only
      rw [walk.eq_def]
      exact ih h (by omega)

/-- One scan to a file in a directory: the directory first, then the entry. -/
theorem scanCreate_append (hdest : RealDir fs dest) :
    scanCreate fs dest (rest ++ [c]) =
      match scan fs dest rest with
      | .done r => if fs.node r = some .dir then scanCreate fs r [c] else .fail .notDirectory
      | .fail e => .fail e
      | .link d r => .link d (r ++ [c]) := by
  induction rest generalizing dest with
  | nil => simp only [List.nil_append, scan, hdest.node, if_true]
  | cons a rest ih =>
      have hne : rest ++ [c] ≠ [] := by simp
      rw [List.cons_append, scanCreate, scan]
      by_cases hskip : a = "" ∨ a = "."
      · rw [if_pos hskip, if_pos hskip]
        exact ih hdest
      · rw [if_neg hskip, if_neg hskip]
        by_cases hup : a = ".."
        · rw [if_pos hup, if_pos hup]
          exact ih (hdest.of_isPrefix (List.dropLast_prefix dest))
        · rw [if_neg hup, if_neg hup]
          have ha : Plain a := ⟨fun h => hskip (Or.inl h), fun h => hskip (Or.inr h), hup⟩
          cases hnode : fs.node (dest ++ [a]) with
          | none => simp only [if_neg hne]
          | some n =>
              cases n with
              | dir => exact ih (realDir_append.mpr ⟨hdest, ha, hnode⟩)
              | file content =>
                  by_cases hrest : rest = []
                  · simp [hrest, hnode]
                  · simp [hrest]
              | symlink target => simp only [List.append_assoc]

/-- The file at the end of a path is opened in the directory before it. -/
theorem walkCreate_append (hdest : RealDir fs dest) :
    walkCreate fs links dest (rest ++ [c]) = .ok q ↔
      ∃ r left, follow fs links dest rest = .ok (r, left) ∧ fs.node r = some .dir ∧
        walkCreate fs left r [c] = .ok q := by
  rw [walkCreate.eq_def, scanCreate_append hdest]
  fun_induction follow fs links dest rest with
  | case1 links dest rest r hscan =>
      rw [hscan]
      by_cases hdir : fs.node r = some .dir
      · simp only [hdir, if_true, Except.ok.injEq, Prod.mk.injEq]
        constructor
        · exact fun h => ⟨r, links, ⟨rfl, rfl⟩, hdir, by rw [walkCreate.eq_def]; exact h⟩
        · rintro ⟨_, _, ⟨rfl, rfl⟩, -, h⟩
          rwa [walkCreate.eq_def] at h
      · simp [hdir]
  | case2 links dest rest e hscan => simp [hscan]
  | case3 dest rest d r hscan => simp [hscan]
  | case4 dest rest d r hscan links ih =>
      have hd := (scan_real hdest).2 _ _ hscan
      rw [hscan]
      dsimp only
      rw [walkCreate.eq_def, scanCreate_append hd]
      exact ih hd

/-- An entry of a directory that is opened: it is made, truncated, refused or followed. -/
theorem walkCreate_entry (hc : Plain c) :
    walkCreate fs links dest [c] = .ok q ↔
      ((fs.node (dest ++ [c]) = none ∨ ∃ content, fs.node (dest ++ [c]) = some (.file content)) ∧
        q = dest ++ [c]) ∨
      ∃ target left, fs.node (dest ++ [c]) = some (.symlink target) ∧ links = left + 1 ∧
        linkCreate fs left dest target = .ok q := by
  have hskip : ¬ (c = "" ∨ c = ".") := fun h => h.elim hc.1 hc.2.1
  rw [walkCreate, scanCreate, if_neg hskip, if_neg hc.2.2]
  cases hnode : fs.node (dest ++ [c]) with
  | none => simp [eq_comm]
  | some n =>
      cases n with
      | dir => simp [scanCreate]
      | file content => simp [eq_comm]
      | symlink target => cases links <;> simp [linkCreate]

/-- A scan to a file to write and one to a file to read differ only at a directory or a missing
file. -/
theorem scan_of_scanCreate :
    (∀ q, scanCreate fs dest rest = .done q →
      scan fs dest rest = .done q ∨ scan fs dest rest = .fail .notExist) ∧
    ∀ d r, scanCreate fs dest rest = .link d r → scan fs dest rest = .link d r := by
  induction rest generalizing dest with
  | nil => exact ⟨fun q h => by (cases h), fun d r h => by (cases h)⟩
  | cons a rest ih =>
      rw [scanCreate, scan]
      by_cases hskip : a = "" ∨ a = "."
      · rw [if_pos hskip, if_pos hskip]
        exact ih
      · rw [if_neg hskip, if_neg hskip]
        by_cases hup : a = ".."
        · rw [if_pos hup, if_pos hup]
          exact ih
        · rw [if_neg hup, if_neg hup]
          cases hnode : fs.node (dest ++ [a]) with
          | none => exact ⟨fun _ _ => Or.inr rfl, fun d r h => by split_ifs at h⟩
          | some n =>
              cases n with
              | dir => exact ih
              | file content => exact ⟨fun _ h => Or.inl h, fun _ _ h => h⟩
              | symlink target => exact ⟨fun q h => by (cases h), fun _ _ h => h⟩

/-- A file that is found is the one that is opened. -/
theorem walkCreate_eq_walk {more : ℕ} (h : walkCreate fs links dest rest = .ok q)
    (hwalk : walk fs more dest rest = .ok p) : q = p := by
  fun_induction walkCreate fs links dest rest generalizing more with
  | case1 links dest rest q' hscan =>
      obtain rfl := Except.ok.inj h
      rw [walk.eq_def] at hwalk
      rcases scan_of_scanCreate.1 _ hscan with hfound | hmissing
      · rw [hfound] at hwalk
        exact Except.ok.inj hwalk
      · rw [hmissing] at hwalk
        cases hwalk
  | case2 => cases h
  | case3 => cases h
  | case4 dest rest d r hscan links ih =>
      rw [walk.eq_def, scan_of_scanCreate.2 _ _ hscan] at hwalk
      cases more with
      | zero => cases hwalk
      | succ more => exact ih h hwalk

end Walks

end PmxAgents.Lib.FileSystem
