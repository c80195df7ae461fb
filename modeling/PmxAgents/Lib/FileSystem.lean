import Mathlib.Data.List.Dedup
import Mathlib.Data.List.Infix
import Mathlib.Data.List.Lex
import Mathlib.Data.List.Sort
import PmxAgents.Lib.Text

/-!
# A file system with symbolic links

Paths are absolute and kept as their components from the root directory. A path
is resolved component by component; a symbolic link is replaced by its target
and the rest of the path is resolved from there, for at most 255 links. The
result of a resolution is real: all its proper parts are directories and none of
its components is a link.

## Implementation notes

`scan` runs up to the next link and is structural in the components, `walk` is
structural in the number of links left.
-/

namespace PmxAgents.Lib.FileSystem

open PmxAgents.Lib

/-- The components of an absolute path, from the root directory. -/
abbrev Path := List String

inductive Node where
  | file (content : List UInt8)
  | dir
  | symlink (target : String)
  deriving DecidableEq, Repr

/-- The nodes below the root directory. Of two entries for a path the first counts. -/
abbrev Fs := List (Path × Node)

inductive FsError where
  | notExist
  | notDirectory
  | tooManyLinks
  | notEmpty
  | refused
  deriving DecidableEq, Repr

def Fs.node (fs : Fs) (p : Path) : Option Node :=
  if p = [] then some .dir else fs.lookup p

/-- The components a path text consists of, as written. -/
def components (s : List Char) : List String := (Text.split '/' s).map String.ofList

/-- A component that names an entry of a directory. -/
def Plain (c : String) : Prop := c ≠ "" ∧ c ≠ "." ∧ c ≠ ".."

instance (c : String) : Decidable (Plain c) := inferInstanceAs (Decidable (_ ∧ _ ∧ _))

/-- The shortest path with the same meaning, links left aside. -/
def clean (cs : List String) : Path :=
  cs.foldl (fun p c => if c = "" ∨ c = "." then p else if c = ".." then p.dropLast else p ++ [c]) []

inductive Scan where
  | done (p : Path)
  | link (dest : Path) (rest : List String)
  | fail (e : FsError)
  deriving DecidableEq

/-- Follow the components from a directory up to the first link. -/
def scan (fs : Fs) (dest : Path) : List String → Scan
  | [] => .done dest
  | c :: rest =>
      if c = "" ∨ c = "." then scan fs dest rest
      else if c = ".." then scan fs dest.dropLast rest
      else
        match fs.node (dest ++ [c]) with
        | none => .fail .notExist
        | some .dir => scan fs (dest ++ [c]) rest
        | some (.file _) => if rest = [] then .done (dest ++ [c]) else .fail .notDirectory
        | some (.symlink target) =>
            .link (if target.toList.head? = some '/' then [] else dest)
              (components target.toList ++ rest)

/-- Follow the components with the given number of links left. -/
def walk (fs : Fs) (links : Nat) (dest : Path) (rest : List String) : Except FsError Path :=
  match scan fs dest rest with
  | .done p => .ok p
  | .fail e => .error e
  | .link dest' rest' =>
      match links with
      | 0 => .error .tooManyLinks
      | links' + 1 => walk fs links' dest' rest'

def evalSymlinks (fs : Fs) (p : Path) : Except FsError Path := walk fs 255 [] p

/-- The node a path leads to, links followed. -/
def stat (fs : Fs) (p : Path) : Except FsError Node := do
  let q ← evalSymlinks fs p
  match fs.node q with
  | none => .error .notExist
  | some n => .ok n

def childName (dir : Path) (p : Path) : Option String :=
  if p.dropLast = dir then p.getLast? else none

def nameLe (a b : String) : Prop := a.toList.map Char.toNat ≤ b.toList.map Char.toNat

instance : DecidableRel nameLe := fun _ _ => inferInstanceAs (Decidable (_ ≤ _))

/-- The entries of a directory, sorted by name. -/
def readDir (fs : Fs) (dir : Path) : List (String × Node) :=
  (((fs.filterMap fun e => childName dir e.1).dedup).insertionSort nameLe).filterMap fun name =>
    (fs.node (dir ++ [name])).map fun n => (name, n)

def Fs.erase (fs : Fs) (p : Path) : Fs := fs.filter fun e => e.1 ≠ p

/-- Remove the entry a path names: links in its directory are followed, a link in the
last place is removed itself. The system may refuse the removal of some entries. -/
def remove (refuses : Path → Bool) (fs : Fs) (p : Path) : Except FsError Fs :=
  match p.getLast? with
  | none => .error .refused
  | some name => do
      let parent ← evalSymlinks fs p.dropLast
      let entry := parent ++ [name]
      match fs.node parent, fs.node entry with
      | some .dir, some n =>
          if n = .dir ∧ readDir fs entry ≠ [] then .error .notEmpty
          else if refuses entry then .error .refused
          else .ok (fs.erase entry)
      | some .dir, none => .error .notExist
      | _, _ => .error .notDirectory

/-- The path leads to something, links followed. -/
def pathExists (fs : Fs) (p : Path) : Bool := (stat fs p).isOk

section Entries
variable {fs : Fs} {d p q : Path} {name : String} {n : Node}

theorem node_erase_ne (h : q ≠ p) : (fs.erase p).node q = fs.node q := by
  unfold Fs.node Fs.erase
  congr 1
  induction fs with
  | nil => rfl
  | cons e rest ih =>
      obtain ⟨r, m⟩ := e
      by_cases hr : r = p
      · have hqr : (q == r) = false := by simpa [hr] using h
        simp only [List.filter_cons, hr, ne_eq, not_true_eq_false, decide_false,
          Bool.false_eq_true, if_false]
        rw [ih, List.lookup_cons, ← hr, hqr]
      · rw [List.filter_cons, if_pos (by simpa using hr), List.lookup_cons, List.lookup_cons, ih]

theorem node_erase_self (h : p ≠ []) : (fs.erase p).node p = none := by
  rw [Fs.node, if_neg h, List.lookup_eq_none_iff]
  intro e he
  have hne : e.1 ≠ p := of_decide_eq_true (List.mem_filter.mp he).2
  exact bne_iff_ne.mpr hne.symm

theorem childName_eq_some : childName d p = some name ↔ p = d ++ [name] := by
  unfold childName
  constructor
  · intro h
    split at h
    · rename_i hd
      rw [← hd]
      exact (List.dropLast_append_getLast? name h).symm
    · cases h
  · rintro rfl
    simp

/-- The listing of a directory is its entries. -/
theorem mem_readDir : (name, n) ∈ readDir fs d ↔ fs.node (d ++ [name]) = some n := by
  simp only [readDir, List.mem_filterMap, List.mem_insertionSort, List.mem_dedup,
    childName_eq_some, Option.map_eq_some_iff, Prod.mk.injEq]
  constructor
  · rintro ⟨_, -, _, hn, rfl, rfl⟩
    exact hn
  · intro h
    refine ⟨name, ?_, n, h, rfl, rfl⟩
    rw [Fs.node, if_neg (by simp), List.lookup_eq_some_iff] at h
    obtain ⟨_, _, rfl, -⟩ := h
    exact ⟨_, List.mem_append_right _ List.mem_cons_self, rfl⟩

theorem nodup_readDir (fs : Fs) (d : Path) : ((readDir fs d).map Prod.fst).Nodup := by
  have h : ((fs.filterMap fun e => childName d e.1).dedup.insertionSort nameLe).Nodup :=
    (List.perm_insertionSort _ _).nodup_iff.mpr (List.nodup_dedup _)
  unfold readDir
  generalize (fs.filterMap fun e => childName d e.1).dedup.insertionSort nameLe = names at h
  induction names with
  | nil => simp
  | cons c rest ih =>
      rw [List.nodup_cons] at h
      rw [List.filterMap_cons]
      split
      · exact ih h.2
      · rename_i b hb
        obtain ⟨m, -, rfl⟩ := Option.map_eq_some_iff.mp hb
        refine List.nodup_cons.mpr ⟨fun hmem => h.1 ?_, ih h.2⟩
        obtain ⟨e, he, hec⟩ := List.mem_map.mp hmem
        obtain ⟨c', hc', hm⟩ := List.mem_filterMap.mp he
        obtain ⟨_, -, rfl⟩ := Option.map_eq_some_iff.mp hm
        exact (show c' = c from hec) ▸ hc'

end Entries

section Real
variable {fs : Fs} {dest p q : Path} {rest : List String} {c : String}

/-- A path of directories without links. -/
def RealDir (fs : Fs) (p : Path) : Prop :=
  ∀ q c, q ++ [c] <+: p → Plain c ∧ fs.node (q ++ [c]) = some .dir

@[simp] theorem realDir_nil : RealDir fs [] := fun q c h => by simp at h

theorem RealDir.of_isPrefix (h : RealDir fs p) (hq : q <+: p) : RealDir fs q :=
  fun r c hr => h r c (hr.trans hq)

theorem realDir_append : RealDir fs (p ++ [c]) ↔
    RealDir fs p ∧ Plain c ∧ fs.node (p ++ [c]) = some .dir := by
  constructor
  · intro h
    exact ⟨h.of_isPrefix (List.prefix_append _ _), h p c List.prefix_rfl⟩
  · rintro ⟨hp, hc⟩ q c' hq
    rcases List.prefix_concat_iff.mp hq with heq | hpre
    · obtain ⟨rfl, rfl⟩ : q = p ∧ c' = c := by simpa using heq
      exact hc
    · exact hp q c' hpre

theorem RealDir.node (h : RealDir fs p) : fs.node p = some .dir := by
  rcases List.eq_nil_or_concat p with rfl | ⟨q, c, rfl⟩
  · simp [Fs.node]
  · rw [List.concat_eq_append] at h ⊢
    exact (realDir_append.mp h).2.2

/-- A path that a resolution can end in. -/
def Real (fs : Fs) (p : Path) : Prop :=
  RealDir fs p ∨ ∃ q c content, p = q ++ [c] ∧ Plain c ∧ RealDir fs q ∧
    fs.node p = some (.file content)

/-- Following plain components through directories only appends them. -/
theorem scan_append (h : RealDir fs (dest ++ p)) :
    scan fs dest (p ++ rest) = scan fs (dest ++ p) rest := by
  induction p generalizing dest with
  | nil => simp
  | cons c cs ih =>
      have hc := h dest c (by simp [List.prefix_append_right_inj])
      have h' : RealDir fs (dest ++ [c] ++ cs) := by simpa using h
      obtain ⟨⟨hne, hdot, hdd⟩, hnode⟩ := hc
      rw [List.cons_append, scan, if_neg (by simp [hne, hdot]), if_neg hdd, hnode]
      simpa using ih h'

theorem scan_real (hdest : RealDir fs dest) :
    (∀ p, scan fs dest rest = .done p → Real fs p) ∧
      ∀ d r, scan fs dest rest = .link d r → RealDir fs d := by
  induction rest generalizing dest with
  | nil => exact ⟨fun p h => by cases h; exact Or.inl hdest, fun d r h => by cases h⟩
  | cons c rest ih =>
      rw [scan]
      split
      · exact ih hdest
      · rename_i hskip
        split
        · exact ih (hdest.of_isPrefix (List.dropLast_prefix dest))
        · rename_i hdd
          have hc : Plain c := ⟨fun h => hskip (Or.inl h), fun h => hskip (Or.inr h), hdd⟩
          split
          · exact ⟨nofun, nofun⟩
          · rename_i hnode
            exact ih (realDir_append.mpr ⟨hdest, hc, hnode⟩)
          · rename_i content hnode
            refine ⟨fun p h => ?_, fun d r h => by split at h <;> cases h⟩
            split at h
            · cases h
              exact Or.inr ⟨dest, c, content, rfl, hc, hdest, hnode⟩
            · cases h
          · refine ⟨nofun, fun d r h => ?_⟩
            cases h
            split
            · exact realDir_nil
            · exact hdest

theorem walk_real {links : Nat} (hdest : RealDir fs dest)
    (h : walk fs links dest rest = .ok p) : Real fs p := by
  fun_induction walk fs links dest rest with
  | case1 links dest rest q hdone =>
      obtain rfl := Except.ok.inj h
      exact (scan_real hdest).1 _ hdone
  | case2 => cases h
  | case3 => cases h
  | case4 dest rest d r hlink links ih => exact ih ((scan_real hdest).2 _ _ hlink) h

theorem evalSymlinks_real (h : evalSymlinks fs p = .ok q) : Real fs q :=
  walk_real realDir_nil h

/-- A real directory resolves to itself, and so does a plain entry of it that is not a link. -/
theorem evalSymlinks_realDir (h : RealDir fs p) : evalSymlinks fs p = .ok p := by
  have hscan : scan fs [] (p ++ []) = scan fs ([] ++ p) [] := scan_append (by simpa using h)
  rw [List.append_nil, List.nil_append] at hscan
  rw [evalSymlinks, walk, hscan]
  rfl

theorem evalSymlinks_entry (h : RealDir fs p) :
    evalSymlinks fs (p ++ [c]) =
      match scan fs p [c] with
      | .done q => .ok q
      | .fail e => .error e
      | .link d r => walk fs 254 d r := by
  rw [evalSymlinks, walk, scan_append (by simpa using h)]
  rfl

theorem evalSymlinks_file {content : List UInt8} (h : RealDir fs p) (hc : Plain c)
    (hnode : fs.node (p ++ [c]) = some (.file content)) :
    evalSymlinks fs (p ++ [c]) = .ok (p ++ [c]) := by
  rw [evalSymlinks_entry h, scan, if_neg (by simp [hc.1, hc.2.1]), if_neg hc.2.2, hnode]
  simp

theorem evalSymlinks_missing (h : RealDir fs p) (hc : Plain c)
    (hnode : fs.node (p ++ [c]) = none) :
    evalSymlinks fs (p ++ [c]) = .error .notExist := by
  rw [evalSymlinks_entry h, scan, if_neg (by simp [hc.1, hc.2.1]), if_neg hc.2.2, hnode]

/-- A real directory stays one when an entry of it is removed. -/
theorem RealDir.erase (h : RealDir fs p) (hp : p <+: q) :
    RealDir (fs.erase (q ++ [c])) p := by
  intro r c' hr
  obtain ⟨hplain, hnode⟩ := h r c' hr
  refine ⟨hplain, ?_⟩
  rw [node_erase_ne ?_, hnode]
  intro heq
  have hle := (hr.trans hp).length_le
  rw [heq, List.length_append, List.length_singleton] at hle
  omega

/-- Removing an entry of a real directory: it is there, and neither full nor refused. -/
theorem remove_realDir (refuses : Path → Bool) (h : RealDir fs p) :
    remove refuses fs (p ++ [c]) =
      match fs.node (p ++ [c]) with
      | none => .error .notExist
      | some n =>
          if n = .dir ∧ readDir fs (p ++ [c]) ≠ [] then .error .notEmpty
          else if refuses (p ++ [c]) then .error .refused
          else .ok (fs.erase (p ++ [c])) := by
  simp only [remove, List.getLast?_concat, List.dropLast_concat, evalSymlinks_realDir h, bind,
    Except.bind, h.node]
  cases fs.node (p ++ [c]) <;> rfl

theorem remove_entry {refuses : Path → Bool} {fs' : Fs} (h : RealDir fs p)
    (hrem : remove refuses fs (p ++ [c]) = .ok fs') : fs' = fs.erase (p ++ [c]) := by
  rw [remove_realDir refuses h] at hrem
  split at hrem
  · cases hrem
  · split_ifs at hrem
    exact (Except.ok.inj hrem).symm

theorem remove_notExist {refuses : Path → Bool} (h : RealDir fs p)
    (hrem : remove refuses fs (p ++ [c]) = .error .notExist) : fs.node (p ++ [c]) = none := by
  rw [remove_realDir refuses h] at hrem
  split at hrem
  · assumption
  · split_ifs at hrem <;> cases hrem

end Real

section OnlyRemoved
variable {fs fs' : Fs}

/-- Between the two file systems only entries that satisfy `D` are gone. -/
def OnlyRemoved (D : Path → Prop) (fs fs' : Fs) : Prop :=
  ∀ p, fs'.node p = fs.node p ∨ D p ∧ fs'.node p = none

theorem OnlyRemoved.refl (D : Path → Prop) (fs : Fs) : OnlyRemoved D fs fs := fun _ => Or.inl rfl

theorem OnlyRemoved.trans {D : Path → Prop} {fs'' : Fs} (h : OnlyRemoved D fs fs')
    (h' : OnlyRemoved D fs' fs'') : OnlyRemoved D fs fs'' := by
  intro p
  rcases h' p with heq | hgone
  · rw [heq]
    exact h p
  · exact Or.inr hgone

theorem OnlyRemoved.mono {D D' : Path → Prop} (h : OnlyRemoved D fs fs')
    (hD : ∀ p, D p → D' p) : OnlyRemoved D' fs fs' :=
  fun p => (h p).imp_right fun hp => ⟨hD p hp.1, hp.2⟩

theorem OnlyRemoved.node_none {D : Path → Prop} (h : OnlyRemoved D fs fs') {p : Path}
    (hp : fs.node p = none) : fs'.node p = none := by
  rcases h p with heq | hgone
  · rw [heq, hp]
  · exact hgone.2

theorem OnlyRemoved.node_some {D : Path → Prop} (h : OnlyRemoved D fs fs') {p : Path} {n : Node}
    (hp : fs'.node p = some n) : fs.node p = some n := by
  rcases h p with heq | hgone
  · rw [← heq, hp]
  · rw [hgone.2] at hp
    cases hp

theorem onlyRemoved_erase (fs : Fs) {p : Path} (hp : p ≠ []) :
    OnlyRemoved (· = p) fs (fs.erase p) := by
  intro q
  by_cases hq : q = p
  · subst hq
    exact Or.inr ⟨rfl, node_erase_self hp⟩
  · exact Or.inl (node_erase_ne hq)

end OnlyRemoved

section Resolution
variable {fs fs' : Fs} {D : Path → Prop} {dest p q : Path} {rest : List String}

theorem RealDir.onlyRemoved (hp : RealDir fs p) (h : OnlyRemoved D fs fs')
    (hD : ∀ q, q <+: p → ¬ D q) : RealDir fs' p := by
  intro q c hq
  obtain ⟨hc, hnode⟩ := hp q c hq
  rcases h (q ++ [c]) with heq | hgone
  · exact ⟨hc, heq.trans hnode⟩
  · exact absurd hgone.1 (hD _ hq)

theorem readDir_eq_nil_of_onlyRemoved (h : OnlyRemoved D fs fs') (hp : readDir fs p = []) :
    readDir fs' p = [] := by
  refine List.eq_nil_iff_forall_not_mem.mpr ?_
  rintro ⟨name, n⟩ hmem
  have hmem' := mem_readDir.mpr (h.node_some (mem_readDir.mp hmem))
  rw [hp] at hmem'
  cases hmem'

/-- Where a resolution still ends, it ends as before. -/
theorem scan_onlyRemoved (h : OnlyRemoved D fs fs') :
    (∀ p, scan fs' dest rest = .done p → scan fs dest rest = .done p) ∧
      ∀ d r, scan fs' dest rest = .link d r → scan fs dest rest = .link d r := by
  induction rest generalizing dest with
  | nil => exact ⟨fun p hp => hp, fun d r hd => hd⟩
  | cons c rest ih =>
      rw [scan, scan]
      split
      · exact ih
      · split
        · exact ih
        · cases hnode : fs'.node (dest ++ [c]) with
          | none => exact ⟨nofun, nofun⟩
          | some n =>
              rw [h.node_some hnode]
              cases n with
              | dir => exact ih
              | file content => exact ⟨fun p hp => hp, fun d r hd => hd⟩
              | symlink target => exact ⟨fun p hp => hp, fun d r hd => hd⟩

theorem evalSymlinks_onlyRemoved (h : OnlyRemoved D fs fs') (hq : evalSymlinks fs' p = .ok q) :
    evalSymlinks fs p = .ok q := by
  have hwalk : ∀ (links : ℕ) (dest : Path) (rest : List String),
      walk fs' links dest rest = .ok q → walk fs links dest rest = .ok q := by
    intro links dest rest hok
    fun_induction walk fs' links dest rest with
    | case1 links dest rest p hdone =>
        rw [walk.eq_def, (scan_onlyRemoved h).1 _ hdone]
        exact hok
    | case2 => cases hok
    | case3 => cases hok
    | case4 dest rest d r hlink links ih =>
        rw [walk.eq_def, (scan_onlyRemoved h).2 _ _ hlink]
        exact ih hok
  exact hwalk 255 [] p hq

end Resolution

end PmxAgents.Lib.FileSystem

/-!
## Path texts

Paths as programs write them: joining, taking apart, and the place a text leads to from a
directory. No directory on the way is a link.
-/

namespace PmxAgents.Lib.PathText

open FileSystem

def isAbsolute (s : String) : Bool := s.toList.head? == some '/'

/-- Join two path texts. An absolute second one replaces the first. -/
def join (base path : String) : String :=
  if isAbsolute path then path
  else if base = "" ∨ base.toList.getLast? = some '/' then base ++ path
  else base ++ "/" ++ path

/-- The components of a path text. The root is a component of its own, and a dot is one only at
the front. -/
def parts (s : String) : List String :=
  let cs := (components s.toList).filter (· ≠ "")
  if isAbsolute s then "/" :: cs.filter (· ≠ ".")
  else if cs.head? = some "." then "." :: cs.filter (· ≠ ".")
  else cs.filter (· ≠ ".")

/-- The path a text leads to from a directory. -/
def resolve (dir : Path) (s : String) : Path :=
  if isAbsolute s then clean (components s.toList) else clean (dir ++ components s.toList)

/-- A text that is one component. -/
def IsName (s : String) : Prop := Plain s ∧ '/' ∉ s.toList

instance (s : String) : Decidable (IsName s) := inferInstanceAs (Decidable (_ ∧ _))

end PmxAgents.Lib.PathText
