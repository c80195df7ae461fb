import PmxAgents.Backup.RetentionSafety

/-!
# What the keep set is

The three passes of the retention policy against their purpose: of each of the most
recent days, weeks and months that the list has, the newest archive. Days, weeks and
months are counted along the calendar. They do not go back along a list that is sorted
newest first, and the keys of the passes tell them apart.
-/

namespace PmxAgents.Backup

open Lib Lib.FileSystem Lib.Calendar Lib.Buckets

/-- Newest first. -/
def NewestFirst (l : List Archive) : Prop := l.Pairwise fun a b => b.timestamp ≤ a.timestamp

instance (l : List Archive) : Decidable (NewestFirst l) :=
  inferInstanceAs (Decidable (l.Pairwise _))

/-- The archive is the newest of its bucket, and fewer than `count` buckets of the list come after
it. Of archives with the same time the one that stands first is taken for the newest. -/
structure NewestOfRecent {κ : Type} [LinearOrder κ] (key : Archive → κ) (count : ℤ)
    (l : List Archive) (a : Archive) : Prop where
  newest : ∀ b ∈ l, key b = key a → b.timestamp ≤ a.timestamp
  first : l.find? (fun b => key b = key a) = some a
  recent : ((later key l (key a)).card : ℤ) < count

/-- The week, from Monday to Sunday, counted from that of 1 January 1970. -/
def Archive.week (a : Archive) : ℤ := (a.day + 3) / 7

/-- The month, counted from the year 0. -/
def Archive.month (a : Archive) : ℤ := 12 * (civilOfDays a.day).year + (civilOfDays a.day).month

/-- What the policy is for: the newest archive of each of the most recent days, weeks and
months. -/
def Wanted (policy : Policy) (l : List Archive) (a : Archive) : Prop :=
  NewestOfRecent Archive.day policy.keepDailies l a ∨
    NewestOfRecent Archive.week policy.keepWeeklies l a ∨
    NewestOfRecent Archive.month policy.keepMonthlies l a

/-! ## Days, weeks and months along the list -/

section Order
variable {a b : Archive} {l : List Archive}

theorem day_mono (h : b.timestamp ≤ a.timestamp) : b.day ≤ a.day :=
  Int.ediv_le_ediv (by decide) h

theorem week_le (h : b.timestamp ≤ a.timestamp) : b.week ≤ a.week :=
  Int.ediv_le_ediv (by decide) (Int.add_le_add_right (day_mono h) 3)

theorem month_le (h : b.timestamp ≤ a.timestamp) : b.month ≤ a.month := by
  have hmono := civilOfDays_mono (day_mono h)
  have ha := civilOfDays_range a.day
  have hb := civilOfDays_range b.day
  rw [Archive.month, Archive.month]
  omega

theorem monthKey_eq_iff : a.monthKey = b.monthKey ↔ a.month = b.month := by
  have ha := civilOfDays_range a.day
  have hb := civilOfDays_range b.day
  rw [Archive.monthKey, Archive.monthKey, Prod.mk.injEq, Archive.month, Archive.month]
  omega

end Order

section Passes
variable {l : List Archive} {a : Archive} {κ : Type} [LinearOrder κ] {key : Archive → κ}

/-- A pass keeps the newest archive of each of the most recent buckets, if the buckets do not go
back along the list. -/
theorem mem_firsts_iff (hsort : NewestFirst l)
    (hkey : ∀ a b : Archive, b.timestamp ≤ a.timestamp → key b ≤ key a) {count : ℤ} :
    0 < count.toNat ∧ a ∈ firsts key count.toNat [] l ↔ NewestOfRecent key count l a := by
  rw [mem_firsts_later (hsort.imp fun {x y} h => hkey x y h)]
  constructor
  · rintro ⟨hfirst, hcard⟩
    refine ⟨fun b hb heq => ?_, hfirst, by omega⟩
    obtain ⟨-, pre, post, rfl, hpre⟩ := List.find?_eq_some_iff_append.mp hfirst
    rcases List.mem_append.mp hb with hb | hb
    · exact absurd heq (by simpa using hpre b hb)
    · rcases List.mem_cons.mp hb with rfl | hb
      · exact le_rfl
      · exact List.rel_of_pairwise_cons (List.pairwise_append.mp hsort).2.1 hb
  · rintro ⟨-, hfirst, hrecent⟩
    exact ⟨hfirst, by omega⟩

end Passes

/-! ## The keep set -/

section KeepSet
variable {l : List Archive} {a : Archive} {policy : Policy}

/-- The three passes. -/
def Kept (policy : Policy) (l : List Archive) (a : Archive) : Prop :=
  (0 < policy.keepDailies.toNat ∧ a ∈ firsts Archive.dayKey policy.keepDailies.toNat [] l) ∨
    (0 < policy.keepWeeklies.toNat ∧ a ∈ firsts Archive.weekKey policy.keepWeeklies.toNat [] l) ∨
    (0 < policy.keepMonthlies.toNat ∧ a ∈ firsts Archive.monthKey policy.keepMonthlies.toNat [] l)

theorem Kept.mem (h : Kept policy l a) : a ∈ l := by
  rcases h with ⟨hpos, h⟩ | ⟨hpos, h⟩ | ⟨hpos, h⟩
  · exact mem_of_mem_firsts hpos h
  · exact mem_of_mem_firsts hpos h
  · exact mem_of_mem_firsts hpos h

theorem mem_computeKeepSet_of_inj (hinj : ∀ b ∈ l, b.path = a.path → b = a) :
    a.path ∈ computeKeepSet l policy ↔ Kept policy l a := by
  rw [computeKeepSet, List.mem_append, List.mem_append, mem_keepBy hinj, mem_keepBy hinj,
    mem_keepBy hinj, or_assoc, Kept]

theorem mem_computeKeepSet_of_mem (hpaths : (l.map Archive.path).Nodup) (ha : a ∈ l) :
    a.path ∈ computeKeepSet l policy ↔ Kept policy l a :=
  mem_computeKeepSet_of_inj fun _ hb => List.inj_on_of_nodup_map hpaths hb ha

theorem exists_of_mem_keepBy {κ : Type} [DecidableEq κ] {key : Archive → κ} {count : Int}
    {p : Path} (h : p ∈ keepBy key count l) : ∃ a ∈ l, a.path = p := by
  rw [keepBy] at h
  split_ifs at h with hpos
  · obtain ⟨a, ha, rfl⟩ := List.mem_map.mp h
    exact ⟨a, mem_of_mem_firsts (by omega) ha, rfl⟩
  · cases h

theorem exists_of_mem_computeKeepSet {p : Path} (h : p ∈ computeKeepSet l policy) :
    ∃ a ∈ l, a.path = p := by
  rw [computeKeepSet, List.mem_append, List.mem_append] at h
  rcases h with (h | h) | h
  · exact exists_of_mem_keepBy h
  · exact exists_of_mem_keepBy h
  · exact exists_of_mem_keepBy h

theorem mem_computeKeepSet (hpaths : (l.map Archive.path).Nodup) {p : Path} :
    p ∈ computeKeepSet l policy ↔ ∃ a, a.path = p ∧ Kept policy l a := by
  constructor
  · intro h
    obtain ⟨a, ha, rfl⟩ := exists_of_mem_computeKeepSet h
    exact ⟨a, rfl, (mem_computeKeepSet_of_mem hpaths ha).mp h⟩
  · rintro ⟨a, rfl, h⟩
    exact (mem_computeKeepSet_of_mem hpaths h.mem).mpr h

theorem kept_iff_wanted (hsort : NewestFirst l) : Kept policy l a ↔ Wanted policy l a := by
  have hdays : ∀ n, firsts Archive.dayKey n [] l = firsts Archive.day n [] l :=
    fun n => firsts_congr (fun _ _ => civilOfDays_injective.eq_iff) n [] l
  have hweeks : ∀ n, firsts Archive.weekKey n [] l = firsts Archive.week n [] l :=
    fun n => firsts_congr (fun _ _ => isoWeek_eq_iff) n [] l
  have hmonths : ∀ n, firsts Archive.monthKey n [] l = firsts Archive.month n [] l :=
    fun n => firsts_congr (fun _ _ => monthKey_eq_iff) n [] l
  rw [Kept, Wanted, ← mem_firsts_iff hsort fun _ _ => day_mono,
    ← mem_firsts_iff hsort fun _ _ => week_le, ← mem_firsts_iff hsort fun _ _ => month_le,
    hdays, hweeks, hmonths]

/-- Of a directory the policy keeps what it is for, in every order that the sort may give. -/
theorem mem_keepSet_listing (S : SortSlice) {fs : Fs} {root : Path} {vmid : String}
    (ha : a ∈ listing fs root vmid) :
    a.path ∈ computeKeepSet (S.run (listing fs root vmid)) policy ↔
      Wanted policy (S.run (listing fs root vmid)) a := by
  have hp := S.perm (listing fs root vmid)
  rw [mem_computeKeepSet_of_inj fun b hb => eq_of_path_eq (hp.mem_iff.mp hb) ha,
    kept_iff_wanted (S.sorted _)]

theorem Kept.filter {keep : Archive → Bool} (ha : keep a) (h : Kept policy l a) :
    Kept policy (l.filter keep) a :=
  h.imp (firsts_filter ha) (Or.imp (firsts_filter ha) (firsts_filter ha))

theorem Kept.mono {policy' : Policy} (hd : policy.keepDailies ≤ policy'.keepDailies)
    (hw : policy.keepWeeklies ≤ policy'.keepWeeklies)
    (hm : policy.keepMonthlies ≤ policy'.keepMonthlies) (h : Kept policy l a) :
    Kept policy' l a :=
  h.imp (firsts_mono (Int.toNat_le_toNat hd))
    (Or.imp (firsts_mono (Int.toNat_le_toNat hw)) (firsts_mono (Int.toNat_le_toNat hm)))

/-- The keep set of a list that is sorted newest first consists of the paths of the archives that
the policy is for. Of what is kept everything is kept again, and greater counts keep no less. -/
theorem computeKeepSet_spec (hsort : NewestFirst l) (hpaths : (l.map Archive.path).Nodup)
    (policy : Policy) :
    (∀ p, p ∈ computeKeepSet l policy ↔ ∃ a, a.path = p ∧ Wanted policy l a) ∧
      (∀ a ∈ keptOf policy l, a.path ∈ computeKeepSet (keptOf policy l) policy) ∧
      ∀ policy' : Policy, policy.keepDailies ≤ policy'.keepDailies →
        policy.keepWeeklies ≤ policy'.keepWeeklies →
        policy.keepMonthlies ≤ policy'.keepMonthlies →
        computeKeepSet l policy ⊆ computeKeepSet l policy' := by
  refine ⟨fun p => ?_, fun a ha => ?_, fun policy' hd hw hm p hp => ?_⟩
  · rw [mem_computeKeepSet hpaths]
    exact exists_congr fun a => and_congr_right fun _ => kept_iff_wanted hsort
  · have hsub : ((keptOf policy l).map Archive.path).Nodup :=
      hpaths.sublist (List.filter_sublist.map _)
    obtain ⟨hal, hkeep⟩ := List.mem_filter.mp ha
    have hkept := (mem_computeKeepSet_of_mem hpaths hal).mp (of_decide_eq_true hkeep)
    exact (mem_computeKeepSet_of_mem hsub ha).mpr (hkept.filter hkeep)
  · obtain ⟨a, rfl, ha⟩ := (mem_computeKeepSet hpaths).mp hp
    exact (mem_computeKeepSet hpaths).mpr ⟨a, rfl, ha.mono hd hw hm⟩

end KeepSet

/-- Archives around the ends of a month, of a week and of a February. -/
def boundaryArchives : List Archive :=
  [⟨["r", "a1"], "", "", 1775001540⟩, ⟨["r", "a2"], "", "", 1774872000⟩,
    ⟨["r", "a3"], "", "", 1774353600⟩, ⟨["r", "a4"], "", "", 1772323140⟩,
    ⟨["r", "a5"], "", "", 1709193600⟩]

/-- The last archive of February is wanted as the newest of the second month. -/
theorem boundaryArchives_february : ["r", "a4"] ∈ computeKeepSet boundaryArchives ⟨2, 2, 2⟩ :=
  ((computeKeepSet_spec (l := boundaryArchives) (by decide) (by decide) ⟨2, 2, 2⟩).1 _).mpr
    ⟨⟨["r", "a4"], "", "", 1772323140⟩, rfl,
      Or.inr (Or.inr ⟨by decide, by decide, by decide⟩)⟩

end PmxAgents.Backup
