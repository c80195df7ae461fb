import Mathlib.Logic.Function.Basic
import PmxAgents.Lib.FileSystem

/-!
# Making directories

A disk of directories and files, on which making a directory may be refused. A directory is
made together with all that are missing on its way: what is there is looked for from the
longest path to the shortest, and what is missing is made from the shortest to the longest.

What is made is described by the places on the way alone. It is made of the missing ones,
as far as no file stands in the way and no directory is refused, and a list of paths that is
made one after the other passes their places one after the other.

## Implementation notes

Links are left aside: a directory is its path with `.` and `..` resolved.
-/

namespace PmxAgents.Lib.MakeDirs

open FileSystem

inductive Kind where
  | dir
  | file
  deriving DecidableEq, Repr

/-- The entries of a disk. What has an entry below it is a directory. -/
structure Disk where
  kind : Path → Option Kind
  /-- Making the directory fails: no permission, no space, or no possible name. -/
  refuses : Path → Bool
  root : kind [] = some .dir
  parent : ∀ p c, (kind (p ++ [c])).isSome → kind p = some .dir

/-- Where a component leads from a directory. -/
def enter (p : Path) (c : String) : Path :=
  if c = "" ∨ c = "." then p else if c = ".." then p.dropLast else p ++ [c]

theorem clean_eq_foldl (cs : List String) : clean cs = cs.foldl enter [] := rfl

/-- The places that components lead to, one after the other. -/
def way (p : Path) : List String → List Path
  | [] => []
  | c :: rest => enter p c :: way (enter p c) rest

theorem way_append (p : Path) (cs : List String) (c : String) :
    way p (cs ++ [c]) = way p cs ++ [enter (cs.foldl enter p) c] := by
  induction cs generalizing p with
  | nil => rfl
  | cons a cs ih => rw [List.cons_append, way, way, ih, List.cons_append, List.foldl_cons]

section Downwards
variable {cs : List String} (hdown : ".." ∉ cs)
include hdown

/-- Without `..`, components lead downwards. -/
theorem prefix_foldl_enter (p : Path) : p <+: cs.foldl enter p := by
  induction cs generalizing p with
  | nil => exact List.prefix_rfl
  | cons c cs ih =>
      obtain ⟨hc, hrest⟩ := not_or.mp (mt List.mem_cons.mpr hdown)
      refine List.IsPrefix.trans ?_ (ih hrest (enter p c))
      rw [enter]
      split_ifs with hdot hup
      · exact List.prefix_rfl
      · exact absurd hup.symm hc
      · exact List.prefix_append p [c]

theorem prefix_of_mem_way {p q : Path} (hq : q ∈ way p cs) : q <+: cs.foldl enter p := by
  induction cs generalizing p with
  | nil => cases hq
  | cons c cs ih =>
      have hrest := (not_or.mp (mt List.mem_cons.mpr hdown)).2
      rw [way, List.mem_cons] at hq
      rcases hq with rfl | hq
      · exact prefix_foldl_enter hrest _
      · exact ih hrest hq

end Downwards

namespace Disk
variable (disk : Disk)

/-- The disk with a new directory. -/
def make (q : Path) (hparent : disk.kind q.dropLast = some .dir) (hmissing : disk.kind q = none) :
    Disk where
  kind := Function.update disk.kind q (some .dir)
  refuses := disk.refuses
  root := by
    have hq : [] ≠ q := by
      rintro rfl
      rw [disk.root] at hmissing
      cases hmissing
    rw [Function.update_of_ne hq, disk.root]
  parent := by
    intro p c hsome
    have hp : p ++ [c] ≠ p := fun h => by simpa using congrArg List.length h
    by_cases hnew : p ++ [c] = q
    · -- the new directory is in a directory
      subst hnew
      rw [Function.update_of_ne hp.symm]
      rwa [List.dropLast_concat] at hparent
    · rw [Function.update_of_ne hnew] at hsome
      have hdir : disk.kind p = some .dir := disk.parent p c hsome
      have hne : p ≠ q := by
        rintro rfl
        rw [hdir] at hmissing
        cases hmissing
      rwa [Function.update_of_ne hne]

/-- Look a path up from a place; all but the last have to be directories. -/
def lookup (p : Path) : List String → Option Path
  | [] => some p
  | c :: rest =>
      if disk.kind p = some .dir ∧ (disk.kind (enter p c)).isSome then lookup (enter p c) rest
      else none

/-- What is at a path, if something is. -/
def stat (cs : List String) : Option Kind := (disk.lookup [] cs).bind disk.kind

/-- Make one directory, in a directory that is there. -/
def mkdir (up : List String) (c : String) : Option (Disk × Path) :=
  match disk.lookup [] up with
  | none => none
  | some p =>
      if h : disk.kind (enter p c) = none ∧ disk.kind (enter p c).dropLast = some .dir then
        if disk.refuses (enter p c) then none
        else some (disk.make (enter p c) h.2 h.1, enter p c)
      else none

end Disk

/-- The disk after making directories, those that were made, and whether it succeeded. -/
structure Making where
  disk : Disk
  made : List Path
  done : Bool

/-- A second making on the disk that the first has left, if that succeeded. -/
def Making.andThen (m : Making) (next : Disk → Making) : Making :=
  if m.done then ⟨(next m.disk).disk, m.made ++ (next m.disk).made, (next m.disk).done⟩ else m

/-- Make one directory; that it is there already is no failure. -/
def makeOne (up : List String) (c : String) (disk : Disk) : Making :=
  match disk.mkdir up c with
  | some (disk', q) => ⟨disk', [q], true⟩
  | none => ⟨disk, [], disk.stat (up ++ [c]) = some .dir⟩

/-- Make a directory and those missing on its way. The last component comes first. -/
def mkdirAll (disk : Disk) : List String → Making
  | [] => ⟨disk, [], true⟩
  | c :: up =>
      match disk.stat (up.reverse ++ [c]) with
      | some .dir => ⟨disk, [], true⟩
      | some .file => ⟨disk, [], false⟩
      | none => (mkdirAll disk up).andThen (makeOne up.reverse c)

/-- Make several directories, up to the first that fails. -/
def makeEach : List (List String) → Disk → Making
  | [], disk => ⟨disk, [], true⟩
  | cs :: rest, disk => (mkdirAll disk cs.reverse).andThen (makeEach rest)

/-! ## What is made along a way -/

/-- A directory is at the place, or can be made there. -/
def Disk.Passable (disk : Disk) (q : Path) : Prop :=
  disk.kind q = some .dir ∨ disk.kind q = none ∧ disk.refuses q = false

/-- The place is missing, and all up to it on the way can be passed. -/
def Disk.Reaches (disk : Disk) (ws : List Path) (q : Path) : Prop :=
  disk.kind q = none ∧ ∃ before after, ws = before ++ q :: after ∧
    ∀ e ∈ before ++ [q], disk.Passable e

/-- The missing places of a way have been made as far as it can be passed. -/
structure Along (disk : Disk) (ws : List Path) (m : Making) : Prop where
  kind : ∀ q, m.disk.kind q = if q ∈ m.made then some .dir else disk.kind q
  refuses : m.disk.refuses = disk.refuses
  done : m.done = true ↔ ∀ q ∈ ws, disk.Passable q
  made : ∀ q, q ∈ m.made ↔ disk.Reaches ws q

section Ways
variable {disk : Disk} {ws vs : List Path} {q : Path} {m m' : Making}

theorem reaches_append : disk.Reaches (ws ++ vs) q ↔
    disk.Reaches ws q ∨ (∀ e ∈ ws, disk.Passable e) ∧ disk.Reaches vs q := by
  constructor
  · rintro ⟨hmissing, before, after, hsplit, hpass⟩
    rcases List.append_eq_append_iff.mp hsplit with ⟨bs, rfl, hvs⟩ | ⟨cs, hws, hvs⟩
    · exact Or.inr ⟨fun e he => hpass e (by simp [he]), hmissing, bs, after, hvs,
        fun e he => hpass e (by simp only [List.append_assoc, List.mem_append] at he ⊢; tauto)⟩
    · cases cs with
      | nil =>
          rw [List.append_nil] at hws
          subst hws
          exact Or.inr ⟨fun e he => hpass e (by simp [he]), hmissing, [], after, hvs.symm,
            fun e he => hpass e (by simp only [List.nil_append] at he; simp [he])⟩
      | cons c cs =>
          rw [List.cons_append, List.cons.injEq] at hvs
          obtain ⟨rfl, rfl⟩ := hvs
          exact Or.inl ⟨hmissing, before, cs, hws, hpass⟩
  · rintro (⟨hmissing, before, after, rfl, hpass⟩ | ⟨hws, hmissing, before, after, rfl, hpass⟩)
    · exact ⟨hmissing, before, after ++ vs, by simp, hpass⟩
    · refine ⟨hmissing, ws ++ before, after, by simp, fun e he => ?_⟩
      rw [List.append_assoc] at he
      rcases List.mem_append.mp he with he | he
      · exact hws e he
      · exact hpass e he

theorem reaches_of_mem (hmissing : disk.kind q = none) (hq : q ∈ ws)
    (hpass : ∀ e ∈ ws, disk.Passable e) : disk.Reaches ws q := by
  obtain ⟨before, after, rfl⟩ := List.append_of_mem hq
  refine ⟨hmissing, before, after, rfl, fun e he => hpass e ?_⟩
  simp only [List.mem_append, List.mem_cons] at he ⊢
  tauto

theorem Disk.Reaches.mem (h : disk.Reaches ws q) : q ∈ ws := by
  obtain ⟨-, before, after, rfl, -⟩ := h
  simp

theorem Disk.Reaches.passable (h : disk.Reaches ws q) : disk.Passable q := by
  obtain ⟨-, before, after, -, hpass⟩ := h
  exact hpass q (by simp)

/-- Passing places once more reaches nothing new. -/
theorem reaches_append_again {us : List Path} (hvs : ∀ e ∈ vs, e ∈ ws) :
    disk.Reaches (ws ++ (vs ++ us)) q ↔ disk.Reaches (ws ++ us) q := by
  have hpass : (∀ e ∈ ws, disk.Passable e) → ∀ e ∈ vs, disk.Passable e :=
    fun hws e he => hws e (hvs e he)
  have hagain : (∀ e ∈ ws, disk.Passable e) → disk.Reaches vs q → disk.Reaches ws q :=
    fun hws hreach => reaches_of_mem hreach.1 (hvs q hreach.mem) hws
  simp only [reaches_append]
  tauto

/-- A way of directories is passed and nothing is made. -/
theorem along_of_dirs (h : ∀ q ∈ ws, disk.kind q = some .dir) : Along disk ws ⟨disk, [], true⟩ where
  kind q := by simp
  refuses := rfl
  done := iff_of_true rfl fun q hq => Or.inl (h q hq)
  made q := by
    refine iff_of_false (by simp) fun hreach => ?_
    have hdir : disk.kind q = some .dir := h q hreach.mem
    rw [hreach.1] at hdir
    cases hdir

/-- What follows a place that cannot be passed is not reached. -/
theorem Along.stop (h : Along disk ws m) (hdone : m.done = false) : Along disk (ws ++ vs) m where
  kind := h.kind
  refuses := h.refuses
  done := by
    have hws : ¬ ∀ q ∈ ws, disk.Passable q := fun hall => by simp [h.done.mpr hall] at hdone
    exact iff_of_false (by simp [hdone]) fun hall =>
      hws fun q hq => hall q (List.mem_append_left _ hq)
  made q := by
    have hws : ¬ ∀ q ∈ ws, disk.Passable q := fun hall => by simp [h.done.mpr hall] at hdone
    rw [h.made, reaches_append]
    tauto

/-- On the disk after a first way, what can be passed is what could be before. -/
theorem Along.passable_iff (h : Along disk ws m) (q : Path) :
    m.disk.Passable q ↔ disk.Passable q := by
  rw [Disk.Passable, Disk.Passable, h.kind, h.refuses]
  split_ifs with hmade
  · exact iff_of_true (Or.inl rfl) (((h.made q).mp hmade).passable)
  · rfl

theorem Along.append (h : Along disk ws m) (hdone : m.done = true) (h' : Along m.disk vs m') :
    Along disk (ws ++ vs) ⟨m'.disk, m.made ++ m'.made, m'.done⟩ where
  kind q := by
    rw [h'.kind, h.kind]
    by_cases hfirst : q ∈ m.made <;> by_cases hthen : q ∈ m'.made <;> simp [hfirst, hthen]
  refuses := h'.refuses.trans h.refuses
  done := by
    have hws := h.done.mp hdone
    rw [h'.done]
    simp only [h.passable_iff, List.mem_append]
    exact ⟨fun hvs q hq => hq.elim (hws q) (hvs q), fun hall q hq => hall q (Or.inr hq)⟩
  made q := by
    have hws := h.done.mp hdone
    have hvs : m.disk.Reaches vs q ↔ q ∉ m.made ∧ disk.Reaches vs q := by
      simp only [Disk.Reaches, h.passable_iff, h.kind]
      split_ifs with hmade
      · simp [hmade]
      · simp [hmade]
    rw [List.mem_append, h'.made, hvs, reaches_append, h.made]
    tauto

/-- Two ways are passed one after the other. -/
theorem Along.andThen (h : Along disk ws m) {next : Disk → Making}
    (hnext : m.done = true → Along m.disk vs (next m.disk)) :
    Along disk (ws ++ vs) (m.andThen next) := by
  rw [Making.andThen]
  split_ifs with hdone
  · exact h.append hdone (hnext hdone)
  · exact h.stop (Bool.eq_false_iff.mpr hdone)

/-- After a way that was passed to its end, its places are directories. -/
theorem Along.dirs (h : Along disk ws m) (hdone : m.done = true) :
    ∀ q ∈ ws, m.disk.kind q = some .dir := by
  intro q hq
  rw [h.kind]
  split_ifs with hmade
  · rfl
  · rcases h.done.mp hdone q hq with hdir | ⟨hmissing, -⟩
    · exact hdir
    · exact absurd ((h.made q).mpr (reaches_of_mem hmissing hq (h.done.mp hdone))) hmade

theorem along_singleton {made : Disk} (hrest : made.refuses = disk.refuses)
    (hmade : made.kind = Function.update disk.kind q (some .dir)) (hmissing : disk.kind q = none)
    (hfree : disk.refuses q = false) : Along disk [q] ⟨made, [q], true⟩ where
  kind p := by
    rw [hmade]
    by_cases hp : p = q
    · simp [hp]
    · simp [hp]
  refuses := hrest
  done := iff_of_true rfl fun p hp => by
    rw [List.mem_singleton.mp hp]
    exact Or.inr ⟨hmissing, hfree⟩
  made p := by
    rw [List.mem_singleton]
    constructor
    · rintro rfl
      refine reaches_of_mem hmissing (List.mem_singleton_self _) fun e he => ?_
      rw [List.mem_singleton.mp he]
      exact Or.inr ⟨hmissing, hfree⟩
    · exact fun h => List.mem_singleton.mp h.mem

theorem along_blocked (h : ¬ disk.Passable q) : Along disk [q] ⟨disk, [], false⟩ where
  kind p := by simp
  refuses := rfl
  done := iff_of_false (by simp) fun hall => h (hall q (List.mem_singleton_self q))
  made p := by
    refine iff_of_false (by simp) fun hreach => h ?_
    rw [← List.mem_singleton.mp hreach.mem]
    exact hreach.passable

end Ways

/-! ## The way of a path -/

section Lookup
variable {disk : Disk} {cs up : List String} {c : String} {p r : Path}

theorem lookup_append : disk.lookup p (cs ++ [c]) = some r ↔
    ∃ r', disk.lookup p cs = some r' ∧ disk.kind r' = some .dir ∧
      (disk.kind (enter r' c)).isSome ∧ enter r' c = r := by
  induction cs generalizing p with
  | nil =>
      simp only [List.nil_append, Disk.lookup]
      split_ifs with h
      · simp [h]
      · simp only [Option.some.injEq, exists_eq_left', false_iff]
        exact fun hall => h ⟨hall.1, hall.2.1⟩
  | cons a cs ih =>
      simp only [List.cons_append, Disk.lookup]
      split_ifs
      · exact ih
      · simp

/-- A path leads to a directory exactly if all on its way are directories. -/
theorem lookup_dir_iff : disk.lookup [] cs = some r ∧ disk.kind r = some .dir ↔
    clean cs = r ∧ ∀ q ∈ way [] cs, disk.kind q = some .dir := by
  induction cs using List.reverseRecOn generalizing r with
  | nil =>
      constructor
      · rintro ⟨h, -⟩
        exact ⟨Option.some.inj h, nofun⟩
      · rintro ⟨rfl, -⟩
        exact ⟨rfl, disk.root⟩
  | append_singleton cs c ih =>
      rw [lookup_append, way_append, ← clean_eq_foldl, clean_eq_foldl (cs ++ [c]),
        List.foldl_append, ← clean_eq_foldl]
      constructor
      · rintro ⟨⟨r', hlookup, hdir, -, rfl⟩, hkind⟩
        obtain ⟨rfl, hdirs⟩ := ih.mp ⟨hlookup, hdir⟩
        refine ⟨rfl, fun q hq => ?_⟩
        rcases List.mem_append.mp hq with hq | hq
        · exact hdirs q hq
        · rwa [List.mem_singleton.mp hq]
      · rintro ⟨rfl, hdirs⟩
        obtain ⟨hlookup, hdir⟩ := ih.mpr ⟨rfl, fun q hq => hdirs q (List.mem_append_left _ hq)⟩
        have hkind : disk.kind (enter (clean cs) c) = some .dir := hdirs _ (by simp)
        exact ⟨⟨clean cs, hlookup, hdir, by simp [hkind], rfl⟩, hkind⟩

theorem stat_dir_iff : disk.stat cs = some .dir ↔ ∀ q ∈ way [] cs, disk.kind q = some .dir := by
  rw [Disk.stat, Option.bind_eq_some_iff]
  simp only [lookup_dir_iff, exists_eq_left']

/-- What is at the end of a path is in a directory. -/
theorem stat_append (hdirs : ∀ q ∈ way [] up, disk.kind q = some .dir) :
    disk.stat (up ++ [c]) = disk.kind (enter (clean up) c) := by
  obtain ⟨hlookup, hdir⟩ := lookup_dir_iff.mpr ⟨rfl, hdirs⟩
  cases hkind : disk.kind (enter (clean up) c) with
  | none =>
      rw [Disk.stat, Option.bind_eq_none_iff]
      intro r hr
      obtain ⟨r', hlookup', -, hsome, -⟩ := lookup_append.mp hr
      obtain rfl := Option.some.inj (hlookup.symm.trans hlookup')
      rw [hkind] at hsome
      cases hsome
  | some k =>
      have hfound : disk.lookup [] (up ++ [c]) = some (enter (clean up) c) :=
        lookup_append.mpr ⟨clean up, hlookup, hdir, by simp [hkind], rfl⟩
      rw [Disk.stat, hfound, Option.bind_some, hkind]

theorem dirs_of_stat_file (h : disk.stat (up ++ [c]) = some .file) :
    ∀ q ∈ way [] up, disk.kind q = some .dir := by
  rw [Disk.stat, Option.bind_eq_some_iff] at h
  obtain ⟨r, hr, -⟩ := h
  obtain ⟨r', hlookup, hdir, -⟩ := lookup_append.mp hr
  exact (lookup_dir_iff.mp ⟨hlookup, hdir⟩).2

/-- A component that leads from a directory to nothing names an entry of it. -/
theorem dropLast_enter (hdir : disk.kind p = some .dir) (hmissing : disk.kind (enter p c) = none) :
    (enter p c).dropLast = p := by
  rw [enter] at hmissing ⊢
  split_ifs at hmissing ⊢ with hdot hup
  · rw [hdir] at hmissing
    cases hmissing
  · -- the directory above a directory is there
    rcases List.eq_nil_or_concat p with rfl | ⟨d, a, rfl⟩
    · rfl
    · rw [List.concat_eq_append] at *
      rw [List.dropLast_concat, disk.parent d a (by simp [hdir])] at hmissing
      cases hmissing
  · exact List.dropLast_concat

theorem along_makeOne (hdirs : ∀ q ∈ way [] up, disk.kind q = some .dir) :
    Along disk [enter (clean up) c] (makeOne up c disk) := by
  obtain ⟨hlookup, hdir⟩ := lookup_dir_iff.mpr ⟨rfl, hdirs⟩
  have hstat := stat_append (c := c) hdirs
  cases hkind : disk.kind (enter (clean up) c) with
  | some k =>
      have hmkdir : disk.mkdir up c = none := by
        simp only [Disk.mkdir, hlookup]
        rw [dif_neg (by simp [hkind])]
      simp only [makeOne, hmkdir, hstat, hkind]
      cases k with
      | dir =>
          refine along_of_dirs fun q hq => ?_
          rwa [List.mem_singleton.mp hq]
      | file => exact along_blocked (by simp [Disk.Passable, hkind])
  | none =>
      have hparent : disk.kind (enter (clean up) c).dropLast = some .dir := by
        rwa [dropLast_enter hdir hkind]
      cases hrefuses : disk.refuses (enter (clean up) c) with
      | true =>
          have hmkdir : disk.mkdir up c = none := by
            simp only [Disk.mkdir, hlookup]
            rw [dif_pos ⟨hkind, hparent⟩, if_pos hrefuses]
          simp only [makeOne, hmkdir, hstat, hkind]
          exact along_blocked (by simp [Disk.Passable, hkind, hrefuses])
      | false =>
          have hmkdir : disk.mkdir up c =
              some (disk.make _ hparent hkind, enter (clean up) c) := by
            simp only [Disk.mkdir, hlookup]
            rw [dif_pos ⟨hkind, hparent⟩, if_neg (by simp [hrefuses])]
          simp only [makeOne, hmkdir]
          exact along_singleton rfl rfl hkind hrefuses

/-- Looking from the longest path and making from the shortest passes the places of the way in
their order. -/
theorem along_mkdirAll (disk : Disk) (cs : List String) :
    Along disk (way [] cs.reverse) (mkdirAll disk cs) := by
  induction cs with
  | nil => exact along_of_dirs nofun
  | cons c up ih =>
      rw [List.reverse_cons, mkdirAll]
      cases hstat : disk.stat (up.reverse ++ [c]) with
      | none =>
          rw [way_append]
          exact ih.andThen fun hdone => along_makeOne (ih.dirs hdone)
      | some k =>
          cases k with
          | dir => exact along_of_dirs (stat_dir_iff.mp hstat)
          | file =>
              have hdirs := dirs_of_stat_file hstat
              rw [stat_append hdirs] at hstat
              have hblocked : Along disk [enter (clean up.reverse) c] ⟨disk, [], false⟩ :=
                along_blocked (by simp [Disk.Passable, hstat])
              rw [way_append]
              exact (along_of_dirs hdirs).append rfl hblocked

theorem along_makeEach (paths : List (List String)) (disk : Disk) :
    Along disk (paths.flatMap (way [])) (makeEach paths disk) := by
  induction paths generalizing disk with
  | nil => exact along_of_dirs nofun
  | cons cs rest ih =>
      have hfirst := along_mkdirAll disk cs.reverse
      rw [List.reverse_reverse] at hfirst
      rw [List.flatMap_cons, makeEach]
      exact hfirst.andThen fun _ => ih _

end Lookup

end PmxAgents.Lib.MakeDirs
