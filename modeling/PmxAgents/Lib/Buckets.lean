import Mathlib.Data.Finset.Card
import Mathlib.Data.List.Nodup
import Mathlib.Data.List.Sort

/-!
# The first element of each bucket

A pass over a list that keeps the first element of every bucket and stops after
a number of buckets. On a list sorted by time, newest first, what is kept does
not depend on the order among equal times for an element whose time is its own.
-/

namespace PmxAgents.Lib.Buckets

variable {α κ : Type*} [DecidableEq κ]

/-- Keep the first element of each bucket not yet seen, until `limit` buckets are seen. -/
def firsts (bucket : α → κ) (limit : ℕ) (seen : List κ) : List α → List α
  | [] => []
  | a :: rest =>
      if bucket a ∈ seen then firsts bucket limit seen rest
      else
        a :: if limit ≤ (bucket a :: seen).length then []
          else firsts bucket limit (bucket a :: seen) rest

variable {bucket : α → κ} {limit : ℕ}

/-- Where an element stands in a list with a first element. -/
theorem exists_split_cons {P : List α → Prop} {a b : α} {rest : List α} :
    (∃ pre post, b :: rest = pre ++ a :: post ∧ P pre) ↔
      a = b ∧ P [] ∨ ∃ pre post, rest = pre ++ a :: post ∧ P (b :: pre) := by
  constructor
  · rintro ⟨pre, post, heq, hP⟩
    rcases List.cons_eq_append_iff.mp heq with ⟨rfl, heq'⟩ | ⟨pre', rfl, rfl⟩
    · cases heq'
      exact Or.inl ⟨rfl, hP⟩
    · exact Or.inr ⟨pre', post, rfl, hP⟩
  · rintro (⟨rfl, hP⟩ | ⟨pre, post, rfl, hP⟩)
    · exact ⟨[], rest, rfl, hP⟩
    · exact ⟨b :: pre, post, rfl, hP⟩

/-- The bucket of `a` is new after the seen buckets and those of `pre`, which are fewer than
`limit`. -/
def FirstAfter (bucket : α → κ) (limit : ℕ) (seen : List κ) (a : α) (pre : List α) : Prop :=
  bucket a ∉ pre.map bucket ++ seen ∧ (pre.map bucket ++ seen).toFinset.card < limit

theorem firstAfter_cons_of_mem {seen : List κ} {a b : α} {pre : List α} (hb : bucket b ∈ seen) :
    FirstAfter bucket limit seen a (b :: pre) ↔ FirstAfter bucket limit seen a pre := by
  have hmem : bucket b ∈ pre.map bucket ++ seen := List.mem_append_right _ hb
  unfold FirstAfter
  rw [List.map_cons, List.cons_append, List.toFinset_cons,
    Finset.insert_eq_of_mem (List.mem_toFinset.mpr hmem), List.mem_cons, not_or]
  exact and_congr_left fun _ => and_iff_right_of_imp fun h heq => h (heq ▸ hmem)

theorem firstAfter_cons {seen : List κ} {a b : α} {pre : List α} :
    FirstAfter bucket limit seen a (b :: pre) ↔
      FirstAfter bucket limit (bucket b :: seen) a pre := by
  have hperm : (bucket b :: (pre.map bucket ++ seen)).Perm (pre.map bucket ++ bucket b :: seen) :=
    List.perm_middle.symm
  unfold FirstAfter
  rw [List.map_cons, List.cons_append, hperm.mem_iff, List.toFinset_eq_of_perm _ _ hperm]

/-- The kept elements are those that come first in their bucket after fewer than `limit`
buckets. -/
theorem mem_firsts_seen {a : α} {l : List α} {seen : List κ} (hnd : seen.Nodup)
    (hlen : seen.length < limit) :
    a ∈ firsts bucket limit seen l ↔
      ∃ pre post, l = pre ++ a :: post ∧ FirstAfter bucket limit seen a pre := by
  induction l generalizing seen with
  | nil => simp [firsts]
  | cons b rest ih =>
      rw [firsts, exists_split_cons]
      by_cases hb : bucket b ∈ seen
      · have hnil : ¬(a = b ∧ FirstAfter bucket limit seen a []) := by
          rintro ⟨rfl, hnot, -⟩
          exact hnot hb
        simp only [if_pos hb, ih hnd hlen, firstAfter_cons_of_mem hb, or_iff_right hnil]
      · have hnd' : (bucket b :: seen).Nodup := List.nodup_cons.mpr ⟨hb, hnd⟩
        have hnil : a = b ∧ FirstAfter bucket limit seen a [] ↔ a = b := by
          refine and_iff_left_of_imp ?_
          rintro rfl
          exact ⟨hb, by simpa [List.toFinset_card_of_nodup hnd] using hlen⟩
        rw [if_neg hb, List.mem_cons, hnil]
        refine or_congr_right ?_
        simp only [firstAfter_cons]
        split
        · rename_i hfull
          -- the seen buckets alone reach the limit
          refine iff_of_false List.not_mem_nil ?_
          rintro ⟨pre, post, -, -, hcard⟩
          have hle : (bucket b :: seen).toFinset.card ≤
              (pre.map bucket ++ bucket b :: seen).toFinset.card := by
            refine Finset.card_le_card fun x hx => ?_
            rw [List.mem_toFinset] at hx ⊢
            exact List.mem_append_right _ hx
          rw [List.toFinset_card_of_nodup hnd'] at hle
          omega
        · rename_i hroom
          exact ih hnd' (not_le.mp hroom)

theorem mem_firsts {a : α} {l : List α} :
    0 < limit ∧ a ∈ firsts bucket limit [] l ↔
      ∃ pre post, l = pre ++ a :: post ∧ bucket a ∉ pre.map bucket ∧
        (pre.map bucket).toFinset.card < limit := by
  constructor
  · rintro ⟨hpos, h⟩
    simpa [FirstAfter] using (mem_firsts_seen List.nodup_nil hpos).mp h
  · rintro ⟨pre, post, hl, ha, hc⟩
    have hpos : 0 < limit := Nat.zero_lt_of_lt hc
    refine ⟨hpos, (mem_firsts_seen List.nodup_nil hpos).mpr ?_⟩
    exact ⟨pre, post, hl, by simpa using ha, by simpa using hc⟩

/-- More buckets keep no less. -/
theorem firsts_mono {limit' : ℕ} {a : α} {l : List α} (hle : limit ≤ limit')
    (h : 0 < limit ∧ a ∈ firsts bucket limit [] l) :
    0 < limit' ∧ a ∈ firsts bucket limit' [] l := by
  obtain ⟨pre, post, hl, hnew, hcard⟩ := mem_firsts.mp h
  exact mem_firsts.mpr ⟨pre, post, hl, hnew, Nat.lt_of_lt_of_le hcard hle⟩

/-- What is kept is kept of every part of the list that it is in. -/
theorem firsts_filter {keep : α → Bool} {a : α} {l : List α} (ha : keep a)
    (h : 0 < limit ∧ a ∈ firsts bucket limit [] l) :
    0 < limit ∧ a ∈ firsts bucket limit [] (l.filter keep) := by
  obtain ⟨pre, post, rfl, hnew, hcard⟩ := mem_firsts.mp h
  have hsub : (pre.filter keep).map bucket ⊆ pre.map bucket :=
    List.map_subset _ List.filter_sublist.subset
  refine mem_firsts.mpr ⟨pre.filter keep, post.filter keep, ?_, fun hmem => hnew (hsub hmem), ?_⟩
  · rw [List.filter_append, List.filter_cons, if_pos ha]
  · refine Nat.lt_of_le_of_lt (Finset.card_le_card fun k hk => ?_) hcard
    rw [List.mem_toFinset] at hk ⊢
    exact hsub hk

/-- Buckets may be named otherwise. -/
theorem firsts_congr {μ : Type*} [DecidableEq μ] {bucket' : α → μ}
    (h : ∀ a b, bucket' a = bucket' b ↔ bucket a = bucket b) (limit : ℕ) (seen l : List α) :
    firsts bucket' limit (seen.map bucket') l = firsts bucket limit (seen.map bucket) l := by
  induction l generalizing seen with
  | nil => rfl
  | cons a rest ih =>
      have hmem : bucket' a ∈ seen.map bucket' ↔ bucket a ∈ seen.map bucket := by
        simp only [List.mem_map, h]
      rw [firsts, firsts, ih, ← List.map_cons, ← List.map_cons, ih, List.length_map,
        List.length_map]
      simp only [hmem]

section Newest
variable {time : α → ℤ} {l : List α} {a : α}

/-- The elements with a greater time. -/
def newer (time : α → ℤ) (l : List α) (a : α) : List α := l.filter fun b => time a < time b

/-- The element is the newest of its bucket, and fewer than `limit` buckets have newer
elements. -/
def Leads (time : α → ℤ) (bucket : α → κ) (limit : ℕ) (l : List α) (a : α) : Prop :=
  bucket a ∉ (newer time l a).map bucket ∧ ((newer time l a).map bucket).toFinset.card < limit

instance : Decidable (Leads time bucket limit l a) := inferInstanceAs (Decidable (_ ∧ _))

theorem Leads.of_perm {l' : List α} (h : Leads time bucket limit l a) (hp : l.Perm l') :
    Leads time bucket limit l' a := by
  have hmap : ((newer time l a).map bucket).Perm ((newer time l' a).map bucket) :=
    (hp.filter _).map _
  exact ⟨fun hm => h.1 (hmap.mem_iff.mpr hm),
    by rw [← List.toFinset_eq_of_perm _ _ hmap]; exact h.2⟩

/-- In a list sorted newest first, what stands before an element with a time of its own are
the newer elements. -/
theorem before_eq_newer {pre post : List α}
    (hsort : l.Pairwise fun x y => time y ≤ time x) (hl : l = pre ++ a :: post)
    (huniq : ∀ b ∈ pre, time b ≠ time a) : pre = newer time l a := by
  subst hl
  rw [List.pairwise_append] at hsort
  obtain ⟨-, hpost, hcross⟩ := hsort
  have hpre : pre.filter (fun b => decide (time a < time b)) = pre := by
    rw [List.filter_eq_self]
    intro b hb
    exact decide_eq_true (lt_of_le_of_ne (hcross b hb a List.mem_cons_self) (huniq b hb).symm)
  have hnil : (a :: post).filter (fun b => decide (time a < time b)) = [] := by
    rw [List.filter_eq_nil_iff]
    intro b hb
    rw [decide_eq_true_eq, not_lt]
    rcases List.mem_cons.mp hb with rfl | hb
    · exact le_rfl
    · exact (List.pairwise_cons.mp hpost).1 b hb
  rw [newer, List.filter_append, hpre, hnil, List.append_nil]

/-- What the pass keeps of an element whose time is its own, whatever the order among equal
times. -/
theorem mem_firsts_sorted (hnd : l.Nodup) (hsort : l.Pairwise fun x y => time y ≤ time x)
    (ha : a ∈ l) (huniq : ∀ b ∈ l, time b = time a → b = a) :
    0 < limit ∧ a ∈ firsts bucket limit [] l ↔ Leads time bucket limit l a := by
  have hbefore : ∀ pre post, l = pre ++ a :: post → pre = newer time l a := by
    intro pre post hl
    refine before_eq_newer hsort hl fun b hb heq => ?_
    have hab : b = a := huniq b (hl ▸ List.mem_append_left _ hb) heq
    rw [hl, List.nodup_append] at hnd
    exact hnd.2.2 b hb a List.mem_cons_self hab
  rw [mem_firsts]
  constructor
  · rintro ⟨pre, post, hl, hkey, hcard⟩
    rw [hbefore pre post hl] at hkey hcard
    exact ⟨hkey, hcard⟩
  · intro h
    obtain ⟨pre, post, hl⟩ := List.append_of_mem ha
    refine ⟨pre, post, hl, ?_⟩
    rw [hbefore pre post hl]
    exact h

/-- An element behind another one of its bucket is not kept. -/
theorem not_mem_firsts_of_before {b : α}
    (hbefore : ∀ pre post, l = pre ++ a :: post → b ∈ pre) (hkey : bucket b = bucket a)
    (hpos : 0 < limit) : a ∉ firsts bucket limit [] l := by
  intro h
  obtain ⟨pre, post, hl, hnot, -⟩ := mem_firsts.mp ⟨hpos, h⟩
  exact hnot (hkey ▸ List.mem_map_of_mem (hbefore pre post hl))

end Newest

section Recent
variable {ν : Type*} [LinearOrder ν] {key : α → ν} {l : List α} {a : α}

/-- The buckets of the list that come after a bucket. -/
def later (key : α → ν) (l : List α) (k : ν) : Finset ν := (l.map key).toFinset.filter (k < ·)

/-- With the buckets in descending order, those before the first element of a bucket are the later
ones. -/
theorem later_eq {pre post : List α} (hsort : l.Pairwise fun x y => key y ≤ key x)
    (hl : l = pre ++ a :: post) (hfirst : key a ∉ pre.map key) :
    later key l (key a) = (pre.map key).toFinset := by
  subst hl
  obtain ⟨-, hpost, hcross⟩ := List.pairwise_append.mp hsort
  ext k
  simp only [later, Finset.mem_filter, List.mem_toFinset, List.mem_map]
  constructor
  · rintro ⟨⟨b, hb, rfl⟩, hlt⟩
    rcases List.mem_append.mp hb with hb | hb
    · exact ⟨b, hb, rfl⟩
    · rcases List.mem_cons.mp hb with rfl | hb
      · exact absurd hlt (lt_irrefl _)
      · exact absurd hlt (not_lt.mpr (List.rel_of_pairwise_cons hpost hb))
  · rintro ⟨b, hb, rfl⟩
    refine ⟨⟨b, List.mem_append_left _ hb, rfl⟩, ?_⟩
    refine lt_of_le_of_ne (hcross b hb a List.mem_cons_self) fun heq => ?_
    exact hfirst (heq ▸ List.mem_map_of_mem hb)

/-- With the buckets in descending order, what is kept are the first elements of the latest
buckets. -/
theorem mem_firsts_later (hsort : l.Pairwise fun x y => key y ≤ key x) :
    0 < limit ∧ a ∈ firsts key limit [] l ↔
      l.find? (fun b => key b = key a) = some a ∧ (later key l (key a)).card < limit := by
  rw [mem_firsts, List.find?_eq_some_iff_append]
  constructor
  · rintro ⟨pre, post, hl, hfirst, hcard⟩
    refine ⟨⟨by simp, pre, post, hl, fun b hb => ?_⟩, ?_⟩
    · have hne : key b ≠ key a := fun heq => hfirst (heq ▸ List.mem_map_of_mem hb)
      simp [hne]
    · rw [later_eq hsort hl hfirst]
      exact hcard
  · rintro ⟨⟨-, pre, post, hl, hpre⟩, hcard⟩
    have hfirst : key a ∉ pre.map key := by
      intro hmem
      obtain ⟨b, hb, heq⟩ := List.mem_map.mp hmem
      simpa [heq] using hpre b hb
    rw [later_eq hsort hl hfirst] at hcard
    exact ⟨pre, post, hl, hfirst, hcard⟩

end Recent

end PmxAgents.Lib.Buckets
