import PmxAgents.Backup.Retention

/-!
# What a retention pass deletes

In a directory whose archive-like entries are regular files, a pass removes only
listed files outside the keep set and sidecar names of these, and a pass that
succeeds has removed all of them. The listing contains the sidecars too, with the
timestamps of their archives: the newest archive of a day is sure to stay only if
no other file shares its timestamp.
-/

namespace PmxAgents.Backup

open Lib Lib.FileSystem Lib.Buckets

/-- Every entry taken for an archive is a regular file, and no white space ends its name. -/
def VzdumpDirectory (fs : Fs) (root : Path) (vmidFilter : String) : Prop :=
  ∀ name n a, fs.node (root ++ [name]) = some n → parseArchiveFileName name = some a →
    (vmidFilter = "" ∨ a.vmid = vmidFilter) →
      (∃ content, n = .file content) ∧ PathText.trimRight name = name

/-- The name of a log or of notes. -/
def isSidecar (name : String) : Bool :=
  ".notes".toList.isSuffixOf name.toList || ".log".toList.isSuffixOf name.toList

/-! ## The listing -/

section Listing
variable {fs : Fs} {root : Path} {vmid name c : String} {a b : Archive}

theorem parse_fileName (h : parseArchiveFileName name = some a) :
    a.fileName = name ∧ a.path = [] := by
  simp only [parseArchiveFileName, bind, Option.bind_eq_some_iff] at h
  obtain ⟨_, -, _, -, ha⟩ := h
  cases ha
  exact ⟨rfl, rfl⟩

theorem archiveOfEntry_eq_some {n : Node} : archiveOfEntry root vmid (name, n) = some a ↔
    a.path = root ++ [name] ∧ a.fileName = name ∧ n ≠ .dir ∧
      parseArchiveFileName name = some { a with path := [] } ∧ (vmid = "" ∨ a.vmid = vmid) := by
  simp only [archiveOfEntry]
  constructor
  · intro h
    split at h
    · cases h
    · rename_i hdir
      split at h
      · cases h
      · rename_i parsed hparse
        obtain ⟨hfile, hpath⟩ := parse_fileName hparse
        split at h
        · cases h
        · rename_i hfilter
          cases h
          refine ⟨rfl, hfile, hdir, ?_, ?_⟩
          · rw [hparse, ← hpath]
          · by_cases hv : vmid = ""
            · exact Or.inl hv
            · exact Or.inr (not_not.mp fun hne => hfilter ⟨hv, hne⟩)
  · rintro ⟨hpath, -, hdir, hparse, hfilter⟩
    have hkeep : ¬(vmid ≠ "" ∧ a.vmid ≠ vmid) := by
      rintro ⟨hv, hne⟩
      exact hfilter.elim hv hne
    simp only [if_neg hdir, hparse, if_neg hkeep, ← hpath]

theorem mem_listing : a ∈ listing fs root vmid ↔
    a.path = root ++ [a.fileName] ∧ (∃ n, fs.node a.path = some n ∧ n ≠ .dir) ∧
      parseArchiveFileName a.fileName = some { a with path := [] } ∧
      (vmid = "" ∨ a.vmid = vmid) := by
  simp only [listing, List.mem_filterMap, Prod.exists, mem_readDir, archiveOfEntry_eq_some]
  constructor
  · rintro ⟨name, n, hnode, hpath, rfl, hdir, hrest⟩
    exact ⟨hpath, ⟨n, hpath ▸ hnode, hdir⟩, hrest⟩
  · rintro ⟨hpath, ⟨n, hnode, hdir⟩, hrest⟩
    exact ⟨a.fileName, n, hpath ▸ hnode, hpath, rfl, hdir, hrest⟩

theorem eq_of_path_eq (ha : a ∈ listing fs root vmid) (hb : b ∈ listing fs root vmid)
    (h : a.path = b.path) : a = b := by
  obtain ⟨hpa, -, hparse, -⟩ := mem_listing.mp ha
  obtain ⟨hpb, -, hparse', -⟩ := mem_listing.mp hb
  have hfile : a.fileName = b.fileName := by simpa [hpa, hpb] using h
  rw [hfile, hparse'] at hparse
  cases a
  cases b
  simp_all

theorem nodup_listing (fs : Fs) (root : Path) (vmid : String) : (listing fs root vmid).Nodup := by
  rw [List.Nodup, listing, List.pairwise_filterMap]
  refine (List.pairwise_map.mp (nodup_readDir fs root)).imp ?_
  rintro ⟨name, n⟩ ⟨name', n'⟩ hne b hb b' hb' rfl
  have hname := (archiveOfEntry_eq_some.mp hb).2.1
  have hname' := (archiveOfEntry_eq_some.mp hb').2.1
  exact hne (hname.symm.trans hname')

/-- A name derived from an archive is the archive or a sidecar. -/
theorem candidate_cases (h : root ++ [c] ∈ sidecarCandidates (root ++ [name])) :
    c = name ∨ isSidecar c = true ∧ PathText.trimRight c = c := by
  have hside : ∀ x : String, isSidecar (x ++ ".notes") = true ∧
      PathText.trimRight (x ++ ".notes") = x ++ ".notes" := by
    intro x
    simp [isSidecar, PathText.trimRight, String.toList_append, Text.isSpace]
  have hside' : ∀ x : String, isSidecar (x ++ ".log") = true ∧
      PathText.trimRight (x ++ ".log") = x ++ ".log" := by
    intro x
    simp [isSidecar, PathText.trimRight, String.toList_append, Text.isSpace]
  rw [sidecarCandidates_entry, List.mem_map] at h
  obtain ⟨c', hc', heq⟩ := h
  obtain rfl : c' = c := by simpa using heq
  simp only [List.mem_cons, List.not_mem_nil, or_false] at hc'
  rcases hc' with rfl | rfl | rfl | rfl | rfl
  · exact Or.inl rfl
  · exact Or.inr (hside _)
  · exact Or.inr (hside' _)
  · exact Or.inr (hside _)
  · exact Or.inr (hside' _)

theorem parse_candidate (hparse : parseArchiveFileName name = some a)
    (h : root ++ [c] ∈ sidecarCandidates (root ++ [name])) :
    parseArchiveFileName c = some { a with fileName := c } := by
  rw [sidecarCandidates_entry, List.mem_map] at h
  obtain ⟨c', hc', heq⟩ := h
  obtain rfl : c' = c := by simpa using heq
  exact parseArchiveFileName_candidate hparse hc'

theorem tidy_candidate (hparse : parseArchiveFileName name = some a)
    (htrim : PathText.trimRight name = name)
    (h : root ++ [c] ∈ sidecarCandidates (root ++ [name])) : Tidy c := by
  refine ⟨plain_of_parse (parse_candidate hparse h), ?_⟩
  rcases candidate_cases h with rfl | hside
  · exact htrim
  · exact hside.2

end Listing

/-! ## Deletions -/

section Deletions
variable {S : SortSlice} {refuses : Path → Bool} {roots : List String} {root : Path} {vmid : String}
  {fs : Fs} {params : ApplyParams}

theorem mem_condemned {a : Archive} : a ∈ condemned S fs root params ↔
    a ∈ listing fs root params.vmidFilter ∧
      a.path ∉ computeKeepSet (S.run (listing fs root params.vmidFilter)) params.policy := by
  rw [condemned, List.mem_filter, decide_eq_true_eq, (S.perm _).mem_iff]

theorem plan_wouldDelete :
    (params.plan root (S.run (listing fs root params.vmidFilter))).wouldDelete =
      (condemned S fs root params).map Archive.path := by
  simp [ApplyParams.plan, condemned, List.filter_map, Function.comp_def]

/-- Entries listed in an earlier state: still regular files where they exist. -/
def Regular (fs : Fs) (root : Path) (a : Archive) : Prop :=
  a.path = root ++ [a.fileName] ∧ parseArchiveFileName a.fileName = some { a with path := [] } ∧
    PathText.trimRight a.fileName = a.fileName ∧
    ∀ n, fs.node a.path = some n → ∃ content, n = .file content

theorem regular_of_mem {a : Archive} (hdir : VzdumpDirectory fs root vmid)
    (ha : a ∈ listing fs root vmid) : Regular fs root a := by
  obtain ⟨hpath, ⟨n, hnode, -⟩, hparse, hfilter⟩ := mem_listing.mp ha
  have hreg := hdir a.fileName n _ (hpath ▸ hnode) hparse hfilter
  refine ⟨hpath, hparse, hreg.2, fun m hm => ?_⟩
  rw [hnode] at hm
  cases hm
  exact hreg.1

theorem deleteAll_spec (refuses : Path → Bool) (roots : List String) {dels : List Archive}
    (deleted : List Path) (hroot : RealDir fs root)
    (hreg : ∀ a ∈ dels, Regular fs root a) :
    OnlyRemoved (fun p => ∃ a ∈ dels, p ∈ sidecarCandidates a.path) fs
        (deleteAll refuses roots (dels.map Archive.path) deleted fs).1 ∧
      ((∃ d, (deleteAll refuses roots (dels.map Archive.path) deleted fs).2 = .ok d) →
        ∀ a ∈ dels, (deleteAll refuses roots (dels.map Archive.path) deleted fs).1.node a.path =
          none) := by
  induction dels generalizing fs deleted with
  | nil => exact ⟨.refl _ _, by simp⟩
  | cons a rest ih =>
      obtain ⟨hpath, hparse, htrim, hfile⟩ := hreg a List.mem_cons_self
      rw [hpath] at hfile
      rw [List.map_cons, deleteAll, hpath]
      rcases hdel : deleteArchiveWithSidecars refuses roots fs (.ofPath (root ++ [a.fileName]))
        with ⟨fs₁, r⟩
      obtain ⟨hreal, honly, hgone⟩ := deleteArchiveWithSidecars_spec hroot
        (fun c hc => tidy_candidate hparse htrim hc) hfile hdel
      have honly' : OnlyRemoved (fun p => ∃ b ∈ a :: rest, p ∈ sidecarCandidates b.path) fs fs₁ :=
        honly.mono fun p hp => ⟨a, List.mem_cons_self, hpath ▸ hp⟩
      cases r with
      | error e => exact ⟨honly', nofun⟩
      | ok d =>
          have hreg₁ : ∀ b ∈ rest, Regular fs₁ root b := by
            intro b hb
            obtain ⟨h1, h2, h3, h4⟩ := hreg b (List.mem_cons_of_mem _ hb)
            exact ⟨h1, h2, h3, fun n hn => h4 n (honly.node_some hn)⟩
          obtain ⟨hrest, hrestGone⟩ := ih (deleted ++ d) hreal hreg₁
          refine ⟨honly'.trans (hrest.mono ?_), fun hok b hb => ?_⟩
          · rintro p ⟨b, hb, hp⟩
            exact ⟨b, List.mem_cons_of_mem _ hb, hp⟩
          · rcases List.mem_cons.mp hb with rfl | hb
            · rw [hpath]
              exact hrest.node_none (hgone ⟨d, rfl⟩)
            · exact hrestGone hok b hb

variable (hroot : ensureWritableDirectory fs (.parse params.archiveRoot) params.archiveRoots =
    .ok root)
  (hdir : VzdumpDirectory fs root params.vmidFilter)

include hroot hdir

/-- A pass removes condemned files and names derived from them only, whether it succeeds or
not, and a pass that succeeds has removed every condemned file. -/
theorem apply_spec (S : SortSlice) (refuses : Path → Bool) :
    OnlyRemoved (fun p => ∃ a ∈ condemned S fs root params, p ∈ sidecarCandidates a.path) fs
        (apply S refuses fs params).1 ∧
      (params.dryRun = false → (∃ res, (apply S refuses fs params).2 = .ok res) →
        ∀ a ∈ condemned S fs root params, (apply S refuses fs params).1.node a.path = none) := by
  have hreal := ensureWritableDirectory_realDir hroot
  have hreg : ∀ a ∈ condemned S fs root params, Regular fs root a :=
    fun a ha => regular_of_mem hdir (mem_condemned.mp ha).1
  obtain ⟨honly, hgone⟩ :=
    deleteAll_spec refuses params.archiveRoots [] hreal hreg
  unfold apply
  split
  · exact ⟨.refl _ _, by simp⟩
  · simp only [hroot, enumerate, hreal.node, if_true]
    split
    · rename_i hdry
      exact ⟨.refl _ _, by simp [hdry]⟩
    · rw [plan_wouldDelete]
      rcases hrun : deleteAll refuses params.archiveRoots
        ((condemned S fs root params).map Archive.path) [] fs with ⟨fs', r⟩
      rw [hrun] at honly hgone
      cases r with
      | error e => exact ⟨honly, by simp⟩
      | ok d => exact ⟨honly, fun _ _ => hgone ⟨d, rfl⟩⟩

end Deletions

/-! ## The newest archives of the most recent days -/

section Newest
variable {S : SortSlice} {refuses : Path → Bool} {fs : Fs} {root : Path} {vmid : String}
  {params : ApplyParams} {l : List Archive} {a b : Archive}

/-- The archive is the newest one of its day, and fewer than `n` later days have archives. -/
def NewestOfDay (n : ℕ) (l : List Archive) (a : Archive) : Prop :=
  a ∈ l ∧ isSidecar a.fileName = false ∧
    (∀ b ∈ l, isSidecar b.fileName = false → b.day = a.day → b.timestamp ≤ a.timestamp) ∧
    ((l.filter fun b => !isSidecar b.fileName && decide (a.day < b.day)).map
      Archive.day).toFinset.card < n

instance (n : ℕ) (l : List Archive) (a : Archive) : Decidable (NewestOfDay n l a) :=
  inferInstanceAs (Decidable (_ ∧ _ ∧ _ ∧ _))

/-- The file is the newest of its day, week or month among all listed files, within the
number of days, weeks or months to keep. -/
def LeadsPolicy (policy : Policy) (l : List Archive) (a : Archive) : Prop :=
  Leads Archive.timestamp Archive.dayKey policy.keepDailies.toNat l a ∨
    Leads Archive.timestamp Archive.weekKey policy.keepWeeklies.toNat l a ∨
    Leads Archive.timestamp Archive.monthKey policy.keepMonthlies.toNat l a

instance (policy : Policy) (l : List Archive) (a : Archive) :
    Decidable (LeadsPolicy policy l a) := inferInstanceAs (Decidable (_ ∨ _ ∨ _))

/-- No other listed file has the timestamp of the archive, which leads the policy. -/
def Untied (policy : Policy) (l : List Archive) (a : Archive) : Prop :=
  (∀ b ∈ l, b.timestamp = a.timestamp → b = a) ∧ LeadsPolicy policy l a

instance (policy : Policy) (l : List Archive) (a : Archive) : Decidable (Untied policy l a) :=
  inferInstanceAs (Decidable (_ ∧ _))

theorem mem_of_mem_firsts {κ : Type} [DecidableEq κ] {key : Archive → κ} {n : ℕ} (hpos : 0 < n)
    (h : a ∈ firsts key n [] l) : a ∈ l := by
  obtain ⟨pre, post, rfl, -⟩ := mem_firsts.mp ⟨hpos, h⟩
  exact List.mem_append_right _ List.mem_cons_self

theorem mem_keepBy {κ : Type} [DecidableEq κ] {key : Archive → κ} {count : Int}
    (hinj : ∀ b ∈ l, b.path = a.path → b = a) :
    a.path ∈ keepBy key count l ↔ 0 < count.toNat ∧ a ∈ firsts key count.toNat [] l := by
  unfold keepBy
  split
  · rename_i hpos
    have hpos' : 0 < count.toNat := by omega
    rw [List.mem_map]
    constructor
    · rintro ⟨b, hb, hpath⟩
      rw [← hinj b (mem_of_mem_firsts hpos' hb) hpath]
      exact ⟨hpos', hb⟩
    · rintro ⟨-, ha⟩
      exact ⟨a, ha, rfl⟩
  · rename_i hpos
    have hzero : count.toNat = 0 := by omega
    simp [hzero]

theorem LeadsPolicy.of_perm {policy : Policy} {l' : List Archive} (h : LeadsPolicy policy l a)
    (hp : l.Perm l') : LeadsPolicy policy l' a :=
  h.imp (·.of_perm hp) (Or.imp (·.of_perm hp) (·.of_perm hp))

/-- A file with a timestamp of its own is kept exactly when it leads the policy, in every
order of the listing. -/
theorem mem_keepSet_iff {policy : Policy} (ha : a ∈ listing fs root vmid)
    (huniq : ∀ b ∈ listing fs root vmid, b.timestamp = a.timestamp → b = a) :
    a.path ∈ computeKeepSet (S.run (listing fs root vmid)) policy ↔
      LeadsPolicy policy (listing fs root vmid) a := by
  have hp := S.perm (listing fs root vmid)
  have hinj : ∀ b ∈ S.run (listing fs root vmid), b.path = a.path → b = a :=
    fun b hb => eq_of_path_eq (hp.mem_iff.mp hb) ha
  have hnd := hp.nodup_iff.mpr (nodup_listing fs root vmid)
  have hsort := S.sorted (listing fs root vmid)
  have ha' := hp.mem_iff.mpr ha
  have huniq' : ∀ b ∈ S.run (listing fs root vmid), b.timestamp = a.timestamp → b = a :=
    fun b hb => huniq b (hp.mem_iff.mp hb)
  rw [computeKeepSet, List.mem_append, List.mem_append, mem_keepBy hinj, mem_keepBy hinj,
    mem_keepBy hinj, mem_firsts_sorted hnd hsort ha' huniq', mem_firsts_sorted hnd hsort ha' huniq',
    mem_firsts_sorted hnd hsort ha' huniq', or_assoc]
  exact ⟨fun h => LeadsPolicy.of_perm h hp, fun h => h.of_perm hp.symm⟩

/-- Newest first, the archive `a` behind the files with its timestamp. -/
def Behind (a x y : Archive) : Prop :=
  y.timestamp < x.timestamp ∨ x.timestamp = y.timestamp ∧ (x = a → y = a)

instance (a : Archive) : DecidableRel (Behind a) :=
  fun _ _ => inferInstanceAs (Decidable (_ ∨ _ ∧ _))

theorem pairwise_behind (a : Archive) (l : List Archive) :
    (l.insertionSort (Behind a)).Pairwise (Behind a) := by
  have : Std.Total (Behind a) := ⟨fun x y => by
    unfold Behind
    rcases lt_trichotomy x.timestamp y.timestamp with h | h | h
    · exact Or.inr (Or.inl h)
    · by_cases hy : y = a
      · exact Or.inl (Or.inr ⟨h, fun _ => hy⟩)
      · exact Or.inr (Or.inr ⟨h.symm, fun hy' => absurd hy' hy⟩)
    · exact Or.inl (Or.inl h)⟩
  have : IsTrans Archive (Behind a) := ⟨fun x y z hxy hyz => by
    rcases hxy with hxy | ⟨hxy, hxa⟩ <;> rcases hyz with hyz | ⟨hyz, hya⟩
    · exact Or.inl (hyz.trans hxy)
    · exact Or.inl (hyz ▸ hxy)
    · exact Or.inl (hxy ▸ hyz)
    · exact Or.inr ⟨hxy.trans hyz, fun h => hya (hxa h)⟩⟩
  exact List.pairwise_insertionSort _ l

/-- A sorting function that puts an archive behind its ties. -/
def behindTies (a : Archive) : SortSlice where
  run l := l.insertionSort (Behind a)
  perm l := List.perm_insertionSort _ l
  sorted l := (pairwise_behind a l).imp fun h => h.elim le_of_lt fun h => h.1.ge

/-- A tie stands before the archive in the order made against it. -/
theorem tie_before {pre post : List Archive} (hb : b ∈ l) (hne : b ≠ a)
    (htime : b.timestamp = a.timestamp) (hl : (behindTies a).run l = pre ++ a :: post) :
    b ∈ pre := by
  have hmem : b ∈ pre ++ a :: post := hl ▸ ((behindTies a).perm l).mem_iff.mpr hb
  rcases List.mem_append.mp hmem with h | h
  · exact h
  · rcases List.mem_cons.mp h with h | h
    · exact absurd h hne
    · have hsorted := pairwise_behind a l
      rw [show l.insertionSort (Behind a) = pre ++ a :: post from hl,
        List.pairwise_append] at hsorted
      rcases (List.pairwise_cons.mp hsorted.2.1).1 b h with hlt | ⟨-, himp⟩
      · exact absurd hlt (by omega)
      · exact absurd (himp rfl) hne

theorem key_eq_of_timestamp_eq (h : b.timestamp = a.timestamp) :
    b.dayKey = a.dayKey ∧ b.weekKey = a.weekKey ∧ b.monthKey = a.monthKey := by
  have hday : b.day = a.day := by rw [Archive.day, Archive.day, h]
  simp only [Archive.dayKey, Archive.weekKey, Archive.monthKey, hday, and_self]

/-- An archive with a tie is not kept in the order made against it. -/
theorem not_mem_keepSet_of_tie {policy : Policy} (ha : a ∈ listing fs root vmid)
    (hb : b ∈ listing fs root vmid) (hne : b ≠ a) (htime : b.timestamp = a.timestamp) :
    a.path ∉ computeKeepSet ((behindTies a).run (listing fs root vmid)) policy := by
  have hp := (behindTies a).perm (listing fs root vmid)
  have hinj : ∀ c ∈ (behindTies a).run (listing fs root vmid), c.path = a.path → c = a :=
    fun c hc => eq_of_path_eq (hp.mem_iff.mp hc) ha
  have hbefore : ∀ pre post, (behindTies a).run (listing fs root vmid) = pre ++ a :: post →
      b ∈ pre := fun _ _ => tie_before hb hne htime
  obtain ⟨hday, hweek, hmonth⟩ := key_eq_of_timestamp_eq htime
  rw [computeKeepSet, List.mem_append, List.mem_append, mem_keepBy hinj, mem_keepBy hinj,
    mem_keepBy hinj]
  rintro ((⟨hpos, h⟩ | ⟨hpos, h⟩) | ⟨hpos, h⟩)
  · exact not_mem_firsts_of_before hbefore hday hpos h
  · exact not_mem_firsts_of_before hbefore hweek hpos h
  · exact not_mem_firsts_of_before hbefore hmonth hpos h

/-- Some order condemns an archive unless it is untied. -/
theorem exists_condemned_of_not_untied (ha : a ∈ listing fs root params.vmidFilter)
    (h : ¬Untied params.policy (listing fs root params.vmidFilter) a) :
    ∃ S, a ∈ condemned S fs root params := by
  by_cases huniq : ∀ b ∈ listing fs root params.vmidFilter, b.timestamp = a.timestamp → b = a
  · refine ⟨behindTies a, mem_condemned.mpr ⟨ha, ?_⟩⟩
    rw [mem_keepSet_iff ha huniq]
    exact fun hleads => h ⟨huniq, hleads⟩
  · push Not at huniq
    obtain ⟨b, hb, htime, hne⟩ := huniq
    exact ⟨behindTies a, mem_condemned.mpr ⟨ha, not_mem_keepSet_of_tie ha hb hne htime⟩⟩

/-- An archive that is kept stays: the names removed with others are names of sidecars. -/
theorem kept_stays (hroot : ensureWritableDirectory fs (.parse params.archiveRoot)
      params.archiveRoots = .ok root)
    (hdir : VzdumpDirectory fs root params.vmidFilter) (hreal : isSidecar a.fileName = false)
    (ha : a ∈ listing fs root params.vmidFilter) (hkeep : a ∉ condemned S fs root params) :
    (apply S refuses fs params).1.node a.path = fs.node a.path := by
  rcases (apply_spec hroot hdir S refuses).1 a.path with h | ⟨⟨b, hb, hp⟩, -⟩
  · exact h
  · obtain ⟨hpa, -⟩ := mem_listing.mp ha
    have hbl := (mem_condemned.mp hb).1
    obtain ⟨hpb, -⟩ := mem_listing.mp hbl
    rw [hpa, hpb] at hp
    rcases candidate_cases hp with heq | ⟨hside, -⟩
    · have hab : a = b := eq_of_path_eq ha hbl (by rw [hpa, hpb, heq])
      exact absurd (hab ▸ hb) hkeep
    · rw [hside] at hreal
      cases hreal

/-- If the newest archives of the most recent days are untied, every successful pass leaves
them in place. If one of them is not, some admissible order makes every successful pass
delete one. -/
theorem newestOfDay_stays_iff
    (hroot : ensureWritableDirectory fs (.parse params.archiveRoot) params.archiveRoots =
      .ok root)
    (hdir : VzdumpDirectory fs root params.vmidFilter) (hdry : params.dryRun = false) :
    let archives := listing fs root params.vmidFilter
    let Required := NewestOfDay params.policy.keepDailies.toNat archives
    ((∀ a, Required a → Untied params.policy archives a) →
      ∀ S refuses res, (apply S refuses fs params).2 = .ok res → ∀ a, Required a →
        (apply S refuses fs params).1.node a.path = fs.node a.path) ∧
    ((¬∀ a, Required a → Untied params.policy archives a) →
      ∃ S, ∀ refuses res, (apply S refuses fs params).2 = .ok res → ∃ a, Required a ∧
        (apply S refuses fs params).1.node a.path = none) := by
  intro archives Required
  constructor
  · intro huntied S refuses res _ a ha
    obtain ⟨huniq, hleads⟩ := huntied a ha
    refine kept_stays hroot hdir ha.2.1 ha.1 fun hcond => ?_
    exact (mem_condemned.mp hcond).2 ((mem_keepSet_iff ha.1 huniq).mpr hleads)
  · intro h
    push Not at h
    obtain ⟨a, ha, hnot⟩ := h
    obtain ⟨S, hcond⟩ := exists_condemned_of_not_untied ha.1 hnot
    exact ⟨S, fun refuses res hres =>
      ⟨a, ha, (apply_spec hroot hdir S refuses).2 hdry ⟨res, hres⟩ a hcond⟩⟩

/-- The sort of short slices: insertion, which keeps the order of ties. -/
def insertion : SortSlice where
  run l := l.insertionSort fun x y => y.timestamp ≤ x.timestamp
  perm l := List.perm_insertionSort _ l
  sorted l := by
    have : Std.Total fun x y : Archive => y.timestamp ≤ x.timestamp :=
      ⟨fun x y => le_total y.timestamp x.timestamp⟩
    have : IsTrans Archive fun x y => y.timestamp ≤ x.timestamp :=
      ⟨fun _ _ _ hxy hyz => hyz.trans hxy⟩
    exact List.pairwise_insertionSort _ l

/-- A directory `/dump` with the given files. -/
def dumpWith (names : List String) : Fs :=
  (["dump"], .dir) :: names.map fun name => (["dump", name], .file [])

def dumpParams (vmid : String) (policy : Policy) : ApplyParams :=
  { archiveRoot := "/dump", archiveRoots := ["/dump"], vmid, policy, dryRun := false }

def newYearArchive : Archive :=
  { path := ["dump", "vzdump-qemu-100-2024_01_01-00_00_00.vma.zst"]
    fileName := "vzdump-qemu-100-2024_01_01-00_00_00.vma.zst"
    vmid := "100"
    timestamp := 1704067200 }

theorem ensureWritableDirectory_dumpWith (names : List String) :
    ensureWritableDirectory (dumpWith names) (.parse "/dump") ["/dump"] = .ok ["dump"] := by
  rfl

theorem node_dumpWith {names : List String} {name : String} {n : Node}
    (h : (dumpWith names).node (["dump"] ++ [name]) = some n) : name ∈ names ∧ n = .file [] := by
  rw [Fs.node, if_neg (by simp), dumpWith, List.lookup_cons] at h
  have hne : (["dump"] ++ [name] == ["dump"]) = false := by simp
  rw [hne] at h
  obtain ⟨l₁, l₂, heq, -⟩ := List.lookup_eq_some_iff.mp h
  have hmem : (["dump"] ++ [name], n) ∈ names.map fun name => (["dump", name], Node.file []) := by
    rw [heq]
    exact List.mem_append_right _ List.mem_cons_self
  obtain ⟨name', hname', hpair⟩ := List.mem_map.mp hmem
  obtain ⟨rfl, rfl⟩ : name' = name ∧ Node.file [] = n := by simpa using hpair
  exact ⟨hname', rfl⟩

theorem vzdumpDirectory_dumpWith (names : List String) (vmid : String)
    (h : ∀ name ∈ names, PathText.trimRight name = name) :
    VzdumpDirectory (dumpWith names) ["dump"] vmid := by
  intro name n a hnode _ _
  obtain ⟨hname, rfl⟩ := node_dumpWith hnode
  exact ⟨⟨[], rfl⟩, h _ hname⟩

/-- An archive, and an older one with its log. -/
def yearEnd : Fs :=
  dumpWith ["vzdump-qemu-100-2023_12_31-00_00_00.log",
    "vzdump-qemu-100-2023_12_31-00_00_00.vma.zst", newYearArchive.fileName]

def yearEndPass : Fs × Except RetentionError ApplyResult :=
  apply insertion (fun _ => false) yearEnd (dumpParams "100" ⟨1, 0, 0⟩)

/-- The pass for one day deletes the older archive with its log, and the newest one stays. -/
theorem newestOfDay_stays_yearEnd :
    yearEnd.node newYearArchive.path = some (.file []) ∧
      yearEndPass.1.node newYearArchive.path = yearEnd.node newYearArchive.path ∧
      yearEndPass.1.node ["dump", "vzdump-qemu-100-2023_12_31-00_00_00.log"] = none ∧
      yearEndPass.1.node ["dump", "vzdump-qemu-100-2023_12_31-00_00_00.vma.zst"] = none := by
  have hroot : ensureWritableDirectory yearEnd (.parse (dumpParams "100" ⟨1, 0, 0⟩).archiveRoot)
      (dumpParams "100" ⟨1, 0, 0⟩).archiveRoots = .ok ["dump"] :=
    ensureWritableDirectory_dumpWith _
  have hdir : VzdumpDirectory yearEnd ["dump"] (dumpParams "100" ⟨1, 0, 0⟩).vmidFilter :=
    vzdumpDirectory_dumpWith _ _ (by decide +kernel)
  have huntied : ∀ a ∈ listing yearEnd ["dump"] "100",
      NewestOfDay 1 (listing yearEnd ["dump"] "100") a →
      Untied ⟨1, 0, 0⟩ (listing yearEnd ["dump"] "100") a := by decide +kernel
  have hpass : yearEndPass.2.isOk ∧
      yearEndPass.1.node ["dump", "vzdump-qemu-100-2023_12_31-00_00_00.log"] = none ∧
      yearEndPass.1.node ["dump", "vzdump-qemu-100-2023_12_31-00_00_00.vma.zst"] = none := by
    decide +kernel
  cases hres : yearEndPass.2 with
  | error e =>
      rw [hres] at hpass
      cases hpass.1
  | ok res =>
      have hstays := (newestOfDay_stays_iff hroot hdir rfl).1
        (fun a ha => huntied a ha.1 ha) _ _ res hres newYearArchive (by decide +kernel)
      exact ⟨by decide +kernel, hstays, hpass.2⟩

/-- A backup with its log: the pass succeeds, keeps the log and deletes the archive. -/
theorem newestOfDay_deleted :
    let fs := dumpWith ["vzdump-qemu-100-2024_01_01-00_00_00.log", newYearArchive.fileName]
    let pass := apply insertion (fun _ => false) fs (dumpParams "100" ⟨7, 4, 12⟩)
    pass.2.isOk = true ∧ NewestOfDay 7 (listing fs ["dump"] "100") newYearArchive ∧
      fs.node newYearArchive.path = some (.file []) ∧ pass.1.node newYearArchive.path = none := by
  decide +kernel

end Newest

end PmxAgents.Backup
