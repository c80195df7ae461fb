import Mathlib.Algebra.Order.Group.Int
import Mathlib.Data.Int.ConditionallyCompleteOrder
import Mathlib.Data.List.Infix
import Mathlib.Data.List.MinMax
import Mathlib.Data.List.Nodup
import Mathlib.Order.ConditionallyCompleteLattice.Basic
import PmxAgents.Hypervisor.Vm

/-!
# The choice of a storage

`ResolveStorage` keeps the requested storage if it can be used and otherwise takes the one with the
most free space. For the root file system of a container, storages that give block devices come
first, and they are taken before the requested one is looked for: a requested storage that could be
used is given up for another with more space.
-/

namespace PmxAgents.Hypervisor

open Lib Lib.Text Lib.Dialogue

/-! ## What the choice is for -/

section Purpose
variable (requested contentType : String) (storages : List NodeStorage)

/-- The storage is enabled and has the content type. -/
def NodeStorage.Offers (s : NodeStorage) : Prop :=
  s.enabled = 1 ∧ contentType.toList <:+: s.content.toList

/-- For root file systems, storages of blocks come first. -/
def NodeStorage.Preferred (s : NodeStorage) : Prop :=
  contentType = "rootdir" ∧ isBlockStorage s.type = true

def NodeStorage.Eligible (s : NodeStorage) : Prop :=
  s.Offers contentType ∧ (s.active = 1 ∨ s.Preferred contentType)

def NodeStorage.Usable (s : NodeStorage) : Prop :=
  s.Offers contentType ∧ s.active = 1 ∧ (contentType = "rootdir" → isBlockStorage s.type = true)

/-- An eligible storage of the preferred class, if that has any, with the most space in its
class. -/
structure NodeStorage.IsBest (s : NodeStorage) : Prop where
  mem : s ∈ storages
  eligible : s.Eligible contentType
  preferred : ∀ t ∈ storages, t.Eligible contentType → t.Preferred contentType →
    s.Preferred contentType
  maximal : ∀ t ∈ storages, t.Eligible contentType →
    (t.Preferred contentType ↔ s.Preferred contentType) → t.avail ≤ s.avail

/-- The requested storage is there and can be used. -/
def RequestedUsable : Prop := ∃ s ∈ storages, s.storage = requested ∧ s.Usable contentType

/-- The requested storage if it can be used, else a best one, else the requested one. -/
structure Resolves (result : String) : Prop where
  keeps : RequestedUsable requested contentType storages → result = requested
  best : ¬ RequestedUsable requested contentType storages →
    (∃ s ∈ storages, s.Eligible contentType) →
    ∃ s : NodeStorage, s.IsBest contentType storages ∧ s.storage = result
  none_eligible : (¬ ∃ s ∈ storages, s.Eligible contentType) → result = requested

/-- The names are different and no space is negative. -/
structure Listing : Prop where
  distinct : (storages.map NodeStorage.storage).Nodup
  space : ∀ s ∈ storages, 0 ≤ s.avail

/-- Every storage of the host has an identifier. The loop takes the empty name for none. -/
def Named : Prop := ∀ s ∈ storages, s.storage ≠ ""

/-- No storage of blocks has more space than the requested one, and none before it has as much. -/
def RequestedLargest : Prop :=
  contentType = "rootdir" → ∀ pre s post, storages = pre ++ s :: post → s.storage = requested →
    s.Usable contentType →
    (∀ t ∈ pre, t.Offers contentType → isBlockStorage t.type = true → t.avail < s.avail) ∧
    ∀ t ∈ post, t.Offers contentType → isBlockStorage t.type = true → t.avail ≤ s.avail

end Purpose

/-! ## The first of the largest -/

theorem argmax_append_cons_iff {α : Type} {f : α → ℤ} {pre post : List α} {m : α} (h : m ∉ pre) :
    (pre ++ m :: post).argmax f = some m ↔
      (∀ t ∈ pre, f t < f m) ∧ ∀ t ∈ post, f t ≤ f m := by
  classical
  have hm : (pre ++ m :: post).idxOf m = pre.length := by
    rw [List.idxOf_append_of_notMem h, List.idxOf_cons_self, Nat.add_zero]
  rw [List.argmax_eq_some_iff]
  constructor
  · rintro ⟨-, hle, hfirst⟩
    refine ⟨fun t ht => ?_, fun t ht => ?_⟩
    · -- one as large in front would have been taken first
      have hmem : t ∈ pre ++ m :: post := List.mem_append_left _ ht
      refine lt_of_not_ge fun hge => ?_
      have hindex := hfirst t hmem hge
      rw [hm, List.idxOf_append_of_mem ht] at hindex
      exact absurd (List.idxOf_lt_length_of_mem ht) (Nat.not_lt.mpr hindex)
    · exact hle t (List.mem_append_right _ (List.mem_cons_of_mem m ht))
  · rintro ⟨hpre, hpost⟩
    refine ⟨List.mem_append_right _ List.mem_cons_self, ?_, ?_⟩
    · intro t ht
      rcases List.mem_append.mp ht with ht | ht
      · exact (hpre t ht).le
      · rcases List.mem_cons.mp ht with rfl | ht
        · exact le_rfl
        · exact hpost t ht
    · intro t ht hge
      have hnot : t ∉ pre := fun hmem => absurd (hpre t hmem) (not_lt.mpr hge)
      rw [hm, List.idxOf_append_of_notMem hnot]
      exact Nat.le_add_right _ _

/-! ## The loop -/

section Loop
variable {requested contentType : String} {preferBlock : Bool}

/-- The storages that the loop counts as blocks. -/
def blocksOf (contentType : String) (preferBlock : Bool) (l : List NodeStorage) :
    List NodeStorage :=
  l.filter fun s => decide (s.enabled = 1) && decide (contentType.toList <:+: s.content.toList) &&
    (preferBlock && isBlockStorage s.type)

/-- The other storages that the loop looks at. -/
def othersOf (contentType : String) (preferBlock : Bool) (l : List NodeStorage) :
    List NodeStorage :=
  l.filter fun s => decide (s.enabled = 1) && decide (contentType.toList <:+: s.content.toList) &&
    !(preferBlock && isBlockStorage s.type) && decide (s.active = 1)

/-- A name and a space stand for the first of the largest storages, or for none. -/
def Stands (name : String) (avail : ℤ) (l : List NodeStorage) : Prop :=
  match l.argmax NodeStorage.avail with
  | none => name = "" ∧ avail = -1
  | some s => name = s.storage ∧ avail = s.avail

theorem stands_nil : Stands "" (-1) [] := ⟨rfl, rfl⟩

/-- One more storage: it replaces the one so far exactly if it has more space. -/
theorem stands_concat {name : String} {avail : ℤ} {l : List NodeStorage} {s : NodeStorage}
    (h : Stands name avail l) (hspace : 0 ≤ s.avail) {p : Prop} [Decidable p]
    (hp : p ↔ avail < s.avail) :
    Stands (if p then s.storage else name) (if p then s.avail else avail) (l ++ [s]) := by
  rw [Stands] at h ⊢
  rw [List.argmax_concat]
  cases hmax : l.argmax NodeStorage.avail with
  | none =>
      rw [hmax] at h
      have hlt : p := hp.mpr (by rw [h.2]; omega)
      simp [hlt]
  | some c =>
      rw [hmax] at h
      obtain ⟨rfl, rfl⟩ := h
      by_cases hlt : c.avail < s.avail
      · simp [hp.mpr hlt, hlt]
      · simp [mt hp.mp hlt, hlt]

theorem stands_eq_empty_iff {name : String} {avail : ℤ} {l : List NodeStorage}
    (h : Stands name avail l) (hnamed : Named l) :
    name = "" ↔ l.argmax NodeStorage.avail = none := by
  rw [Stands] at h
  cases hmax : l.argmax NodeStorage.avail with
  | none =>
      rw [hmax] at h
      exact iff_of_true h.1 rfl
  | some c =>
      rw [hmax] at h
      exact iff_of_false (h.1 ▸ hnamed c (List.argmax_mem hmax)) (by simp)

/-- What was seen of the storages before. -/
structure Seen (contentType : String) (preferBlock : Bool) (best : Best) (l : List NodeStorage) :
    Prop where
  block : Stands best.block best.blockAvail (blocksOf contentType preferBlock l)
  other : Stands best.other best.otherAvail (othersOf contentType preferBlock l)

/-- The first of the largest blocks, or of the largest others, or the requested storage. -/
noncomputable def answer (requested : String) (blocks others : List NodeStorage) : String :=
  match blocks.argmax NodeStorage.avail with
  | some b => b.storage
  | none =>
      match others.argmax NodeStorage.avail with
      | some o => o.storage
      | none => requested

/-- The empty name stands for no space at all. -/
theorem empty_or_lt_iff {name : String} {avail : ℤ} {l : List NodeStorage} {s : NodeStorage}
    (h : Stands name avail l) (hnamed : Named l) (hspace : 0 ≤ s.avail) :
    name = "" ∨ avail < s.avail ↔ avail < s.avail := by
  constructor
  · rintro (hempty | hlt)
    · rw [Stands, (stands_eq_empty_iff h hnamed).mp hempty] at h
      rw [h.2]
      omega
    · exact hlt
  · exact Or.inr

section Step
variable {best : Best} {seen rest : List NodeStorage} {s : NodeStorage}

theorem Named.sublist {l l' : List NodeStorage} (h : Named l) (hsub : l'.Sublist l) : Named l' :=
  fun s hs => h s (hsub.subset hs)

theorem blocksOf_concat (l : List NodeStorage) (s : NodeStorage) :
    blocksOf contentType preferBlock (l ++ [s]) =
      blocksOf contentType preferBlock l ++ blocksOf contentType preferBlock [s] :=
  List.filter_append _ _

theorem othersOf_concat (l : List NodeStorage) (s : NodeStorage) :
    othersOf contentType preferBlock (l ++ [s]) =
      othersOf contentType preferBlock l ++ othersOf contentType preferBlock [s] :=
  List.filter_append _ _

theorem Seen.skip (h : Seen contentType preferBlock best seen)
    (hblocks : blocksOf contentType preferBlock [s] = [])
    (hothers : othersOf contentType preferBlock [s] = []) :
    Seen contentType preferBlock best (seen ++ [s]) where
  block := by rw [blocksOf_concat, hblocks, List.append_nil]; exact h.block
  other := by rw [othersOf_concat, hothers, List.append_nil]; exact h.other

/-- One storage, if it is not the requested one that ends the search. -/
theorem searchStorage_cons (hseen : Seen contentType preferBlock best seen) (hnamed : Named seen)
    (hspace : 0 ≤ s.avail)
    (hnot : preferBlock = false → s ∈ othersOf contentType preferBlock [s] →
      s.storage ≠ requested) :
    ∃ best', Seen contentType preferBlock best' (seen ++ [s]) ∧
      searchStorage requested contentType preferBlock best (s :: rest) =
        searchStorage requested contentType preferBlock best' rest := by
  rw [searchStorage]
  by_cases hskip : s.enabled ≠ 1 ∨ ¬ contentType.toList <:+: s.content.toList
  · rw [if_pos hskip]
    refine ⟨best, hseen.skip ?_ ?_, rfl⟩
    · rcases hskip with h | h <;> simp [blocksOf, h]
    · rcases hskip with h | h <;> simp [othersOf, h]
  rw [if_neg hskip]
  obtain ⟨henabled, hcontent⟩ : s.enabled = 1 ∧ contentType.toList <:+: s.content.toList := by
    simpa only [ne_eq, not_or, not_not] using hskip
  by_cases hblock : preferBlock = true ∧ isBlockStorage s.type = true
  · rw [if_pos hblock]
    have hblocks : blocksOf contentType preferBlock [s] = [s] := by
      simp [blocksOf, henabled, hcontent, hblock.1, hblock.2]
    have hothers : othersOf contentType preferBlock [s] = [] := by
      simp [othersOf, hblock.1, hblock.2]
    refine ⟨_, ⟨?_, ?_⟩, rfl⟩
    · have hstep := stands_concat hseen.block hspace
        (empty_or_lt_iff hseen.block (hnamed.sublist List.filter_sublist) hspace)
      rw [blocksOf_concat, hblocks, apply_ite Best.block, apply_ite Best.blockAvail]
      exact hstep
    · rw [othersOf_concat, hothers, List.append_nil, apply_ite Best.other,
        apply_ite Best.otherAvail, ite_self, ite_self]
      exact hseen.other
  rw [if_neg hblock]
  have hclass : (preferBlock && isBlockStorage s.type) = false := by
    rw [Bool.eq_false_iff, ne_eq, Bool.and_eq_true]
    exact hblock
  have hblocks : blocksOf contentType preferBlock [s] = [] := by simp [blocksOf, hclass]
  by_cases hactive : s.active ≠ 1
  · rw [if_pos hactive]
    exact ⟨best, hseen.skip hblocks (by simp [othersOf, hactive]), rfl⟩
  rw [if_neg hactive]
  have hothers : othersOf contentType preferBlock [s] = [s] := by
    rw [othersOf, List.filter_cons_of_pos, List.filter_nil]
    rw [hclass]
    simp [henabled, hcontent, not_not.mp hactive]
  have hother : ¬ (s.storage = requested ∧ preferBlock = false) := by
    rintro ⟨hname, hprefer⟩
    exact hnot hprefer (by rw [hothers]; exact List.mem_singleton_self s) hname
  rw [if_neg hother]
  refine ⟨_, ⟨?_, ?_⟩, rfl⟩
  · rw [blocksOf_concat, hblocks, List.append_nil, apply_ite Best.block,
      apply_ite Best.blockAvail, ite_self, ite_self]
    exact hseen.block
  · rw [othersOf_concat, hothers, apply_ite Best.other, apply_ite Best.otherAvail]
    exact stands_concat hseen.other hspace Iff.rfl

/-- The whole search, if the requested storage does not end it. -/
theorem searchStorage_eq_answer (hseen : Seen contentType preferBlock best seen)
    (hnamed : Named (seen ++ rest)) (hspace : ∀ s ∈ rest, 0 ≤ s.avail)
    (hnot : preferBlock = false → ∀ s ∈ othersOf contentType preferBlock rest,
      s.storage ≠ requested) :
    searchStorage requested contentType preferBlock best rest =
      answer requested (blocksOf contentType preferBlock (seen ++ rest))
        (othersOf contentType preferBlock (seen ++ rest)) := by
  induction rest generalizing best seen with
  | nil =>
      rw [List.append_nil] at hnamed ⊢
      have hblock := stands_eq_empty_iff hseen.block (hnamed.sublist List.filter_sublist)
      have hother := stands_eq_empty_iff hseen.other (hnamed.sublist List.filter_sublist)
      have hblocks := hseen.block
      have hothers := hseen.other
      rw [searchStorage, answer]
      rw [Stands] at hblocks hothers
      cases hmax : (blocksOf contentType preferBlock seen).argmax NodeStorage.avail with
      | some b =>
          rw [hmax] at hblocks hblock
          have hprefer : preferBlock = true := by
            have hb := List.argmax_mem hmax
            simp only [blocksOf, List.mem_filter, Bool.and_eq_true] at hb
            exact hb.2.2.1
          rw [if_pos ⟨hprefer, mt hblock.mp (by simp)⟩]
          exact hblocks.1
      | none =>
          rw [hmax] at hblock
          rw [if_neg fun h => h.2 (hblock.mpr rfl)]
          cases hmax' : (othersOf contentType preferBlock seen).argmax NodeStorage.avail with
          | some o =>
              rw [hmax'] at hothers hother
              rw [if_neg (mt hother.mp (by simp))]
              exact hothers.1
          | none =>
              rw [hmax'] at hother
              rw [if_pos (hother.mpr rfl)]
  | cons s rest ih =>
      have hmem : s ∈ othersOf contentType preferBlock [s] →
          s ∈ othersOf contentType preferBlock (s :: rest) := by
        simp only [othersOf, List.mem_filter, List.mem_cons_self, true_and]
        exact id
      obtain ⟨best', hseen', heq⟩ := @searchStorage_cons requested contentType preferBlock best seen
        rest s hseen (hnamed.sublist (List.sublist_append_left _ _)) (hspace s List.mem_cons_self)
        fun hprefer hs => hnot hprefer s (hmem hs)
      rw [heq, ih hseen' (by simpa using hnamed) fun t ht => hspace t (List.mem_cons_of_mem s ht)]
      · simp
      · intro hprefer t ht
        refine hnot hprefer t ?_
        simp only [othersOf, List.mem_filter, List.mem_cons] at ht ⊢
        exact ⟨.inr ht.1, ht.2⟩

/-- A requested storage that is active and has the content type ends the search. -/
theorem searchStorage_of_requested (hs : s ∈ othersOf contentType false rest)
    (hname : s.storage = requested) :
    searchStorage requested contentType false best rest = requested := by
  induction rest generalizing best with
  | nil => cases hs
  | cons t rest ih =>
      have hcases : (t.enabled = 1 ∧ contentType.toList <:+: t.content.toList ∧ t.active = 1 ∧
          t.storage = requested) ∨ s ∈ othersOf contentType false rest := by
        simp only [othersOf, List.mem_filter, List.mem_cons, Bool.and_eq_true,
          decide_eq_true_eq] at hs
        rcases hs with ⟨rfl | hmem, hoffers⟩
        · exact .inl ⟨hoffers.1.1.1, hoffers.1.1.2, hoffers.2, hname⟩
        · exact .inr (by simpa [othersOf, hmem, and_assoc] using hoffers)
      rw [searchStorage]
      rcases hcases with ⟨henabled, hcontent, hactive, hrequested⟩ | hs
      · simp [henabled, hcontent, hactive, hrequested]
      · simp only [ih hs, ite_self]

end Step

end Loop

/-! ## The result -/

section Result
variable {requested contentType : String} {storages : List NodeStorage} {s : NodeStorage}

theorem mem_blocksOf : s ∈ blocksOf contentType (contentType = "rootdir") storages ↔
    s ∈ storages ∧ s.Offers contentType ∧ s.Preferred contentType := by
  simp only [blocksOf, List.mem_filter, Bool.and_eq_true, decide_eq_true_eq, NodeStorage.Offers,
    NodeStorage.Preferred]

theorem mem_othersOf : s ∈ othersOf contentType (contentType = "rootdir") storages ↔
    s ∈ storages ∧ s.Offers contentType ∧ ¬ s.Preferred contentType ∧ s.active = 1 := by
  simp only [othersOf, List.mem_filter, Bool.and_eq_true, decide_eq_true_eq, Bool.not_eq_true',
    Bool.and_eq_false_iff, decide_eq_false_iff_not, NodeStorage.Offers, NodeStorage.Preferred,
    not_and_or, Bool.not_eq_true, and_assoc]

theorem mem_of_eligible (hs : s ∈ storages) (h : s.Eligible contentType) :
    s ∈ blocksOf contentType (contentType = "rootdir") storages ∨
      s ∈ othersOf contentType (contentType = "rootdir") storages := by
  rw [mem_blocksOf, mem_othersOf]
  obtain ⟨hoffers, hclass⟩ := h
  by_cases hpreferred : s.Preferred contentType
  · exact .inl ⟨hs, hoffers, hpreferred⟩
  · exact .inr ⟨hs, hoffers, hpreferred, hclass.resolve_right hpreferred⟩

/-- What the search answers when it runs to its end is a best storage. -/
theorem answer_isBest (h : ∃ s ∈ storages, s.Eligible contentType) :
    ∃ s : NodeStorage, s.IsBest contentType storages ∧
      s.storage = answer requested (blocksOf contentType (contentType = "rootdir") storages)
        (othersOf contentType (contentType = "rootdir") storages) := by
  rw [answer]
  cases hmax : (blocksOf contentType (contentType = "rootdir") storages).argmax
      NodeStorage.avail with
  | some b =>
      obtain ⟨hb, hoffers, hpreferred⟩ := mem_blocksOf.mp (List.argmax_mem hmax)
      refine ⟨b, ⟨hb, ⟨hoffers, .inr hpreferred⟩, fun _ _ _ _ => hpreferred, ?_⟩, rfl⟩
      intro t ht heligible hclass
      exact List.le_of_mem_argmax (mem_blocksOf.mpr ⟨ht, heligible.1, hclass.mpr hpreferred⟩) hmax
  | none =>
      -- without blocks, every eligible storage is one of the others
      have hblocks := List.argmax_eq_none.mp hmax
      have hother : ∀ t ∈ storages, t.Eligible contentType →
          t ∈ othersOf contentType (contentType = "rootdir") storages := by
        intro t ht heligible
        refine (mem_of_eligible ht heligible).resolve_left ?_
        rw [hblocks]
        exact List.not_mem_nil
      cases hmax' : (othersOf contentType (contentType = "rootdir") storages).argmax
          NodeStorage.avail with
      | some o =>
          obtain ⟨ho, hoffers, -, hactive⟩ := mem_othersOf.mp (List.argmax_mem hmax')
          refine ⟨o, ⟨ho, ⟨hoffers, .inl hactive⟩, ?_, ?_⟩, rfl⟩
          · intro t ht heligible hpreferred
            exact absurd hpreferred (mem_othersOf.mp (hother t ht heligible)).2.2.1
          · exact fun t ht heligible _ => List.le_of_mem_argmax (hother t ht heligible) hmax'
      | none =>
          obtain ⟨t, ht, heligible⟩ := h
          have hmem := hother t ht heligible
          rw [List.argmax_eq_none.mp hmax'] at hmem
          cases hmem

theorem answer_of_not_eligible (h : ¬ ∃ s ∈ storages, s.Eligible contentType) :
    answer requested (blocksOf contentType (contentType = "rootdir") storages)
      (othersOf contentType (contentType = "rootdir") storages) = requested := by
  have hblocks : blocksOf contentType (contentType = "rootdir") storages = [] :=
    List.eq_nil_iff_forall_not_mem.mpr fun s hs => by
      obtain ⟨hmem, hoffers, hpreferred⟩ := mem_blocksOf.mp hs
      exact h ⟨s, hmem, hoffers, .inr hpreferred⟩
  have hothers : othersOf contentType (contentType = "rootdir") storages = [] :=
    List.eq_nil_iff_forall_not_mem.mpr fun s hs => by
      obtain ⟨hmem, hoffers, -, hactive⟩ := mem_othersOf.mp hs
      exact h ⟨s, hmem, hoffers, .inl hactive⟩
  rw [answer, hblocks, hothers]
  rfl

theorem Listing.eq_of_name (h : Listing storages) {s t : NodeStorage} (hs : s ∈ storages)
    (ht : t ∈ storages) (hname : s.storage = t.storage) : s = t :=
  List.inj_on_of_nodup_map h.distinct hs ht hname

/-- For root file systems a usable storage is answered exactly if it is the first of the largest. -/
theorem answer_eq_iff {pre post : List NodeStorage} (hlisting : Listing (pre ++ s :: post))
    (hroot : contentType = "rootdir") (hs : s.Usable contentType) :
    answer requested (blocksOf contentType (contentType = "rootdir") (pre ++ s :: post))
        (othersOf contentType (contentType = "rootdir") (pre ++ s :: post)) = s.storage ↔
      (∀ t ∈ pre, t.Offers contentType → isBlockStorage t.type = true → t.avail < s.avail) ∧
        ∀ t ∈ post, t.Offers contentType → isBlockStorage t.type = true → t.avail ≤ s.avail := by
  have hblock : s.Preferred contentType := ⟨hroot, hs.2.2 hroot⟩
  have hmem : s ∈ pre ++ s :: post := List.mem_append_right _ List.mem_cons_self
  have hsplit : blocksOf contentType (contentType = "rootdir") (pre ++ s :: post) =
      blocksOf contentType (contentType = "rootdir") pre ++
        s :: blocksOf contentType (contentType = "rootdir") post := by
    rw [blocksOf, List.filter_append, List.filter_cons_of_pos, ← blocksOf, ← blocksOf]
    have hself : s ∈ blocksOf contentType (contentType = "rootdir") [s] :=
      mem_blocksOf.mpr ⟨List.mem_singleton_self s, hs.1, hblock⟩
    exact (List.mem_filter.mp hself).2
  have hnot : s ∉ blocksOf contentType (contentType = "rootdir") pre := by
    intro hpre
    have hdistinct := hlisting.distinct
    rw [List.map_append, List.map_cons] at hdistinct
    exact (List.disjoint_of_nodup_append hdistinct)
      (List.mem_map_of_mem (mem_blocksOf.mp hpre).1) List.mem_cons_self
  have hprefer : ∀ t : NodeStorage, t.Preferred contentType ↔ isBlockStorage t.type = true :=
    fun t => and_iff_right hroot
  have hlargest := @argmax_append_cons_iff _ NodeStorage.avail _
    (blocksOf contentType (contentType = "rootdir") post) _ hnot
  simp only [mem_blocksOf, hprefer, and_imp] at hlargest
  rw [← hlargest, ← hsplit, answer]
  cases hmax : (blocksOf contentType (contentType = "rootdir") (pre ++ s :: post)).argmax
      NodeStorage.avail with
  | none =>
      rw [List.argmax_eq_none.mp hmax] at hsplit
      simp at hsplit
  | some b =>
      constructor
      · intro hname
        have hb := (mem_blocksOf.mp (List.argmax_mem hmax)).1
        rw [hlisting.eq_of_name hb hmem hname]
      · intro hb
        rw [Option.some.inj hb]

/-- The storage that is used for a container or a machine is the requested one or one of the list,
with what all of these have. -/
theorem searchStorage_induction {P : String → Prop} {preferBlock : Bool} {best : Best}
    (hrequested : P requested) (hother : best.other ≠ "" → P best.other)
    (hblock : best.block ≠ "" → P best.block) (h : ∀ s ∈ storages, P s.storage) :
    P (searchStorage requested contentType preferBlock best storages) := by
  induction storages generalizing best with
  | nil =>
      rw [searchStorage]
      split_ifs with hb ho
      · exact hblock hb.2
      · exact hrequested
      · exact hother ho
  | cons s rest ih =>
      have hs := h s List.mem_cons_self
      have hrest : ∀ t ∈ rest, P t.storage := fun t ht => h t (List.mem_cons_of_mem s ht)
      rw [searchStorage]
      split_ifs
      · exact ih hother hblock hrest
      · exact ih hother (fun _ => hs) hrest
      · exact ih hother hblock hrest
      · exact ih hother hblock hrest
      · exact hrequested
      · exact ih (fun _ => hs) hblock hrest
      · exact ih hother hblock hrest

/-- The search keeps to its purpose exactly if it does not pass over a requested storage. -/
theorem searchStorage_resolves_iff (hlisting : Listing storages) (hnamed : Named storages) :
    Resolves requested contentType storages
        (searchStorage requested contentType (contentType = "rootdir") ⟨"", -1, "", -1⟩ storages) ↔
      RequestedLargest requested contentType storages := by
  have hseen : Seen contentType (contentType = "rootdir") ⟨"", -1, "", -1⟩ [] :=
    ⟨stands_nil, stands_nil⟩
  by_cases hearly : contentType ≠ "rootdir" ∧ RequestedUsable requested contentType storages
  · -- the requested storage ends the search
    obtain ⟨hroot, s, hs, hname, hoffers, hactive, -⟩ := hearly
    have hmem : s ∈ othersOf contentType (contentType = "rootdir") storages :=
      mem_othersOf.mpr ⟨hs, hoffers, fun h => hroot h.1, hactive⟩
    rw [decide_eq_false hroot] at hmem ⊢
    rw [searchStorage_of_requested hmem hname]
    refine iff_of_true ⟨fun _ => rfl, fun hnot => ?_, fun _ => rfl⟩ fun h => absurd h hroot
    exact absurd ⟨s, hs, hname, hoffers, hactive, fun h => absurd h hroot⟩ hnot
  · have hnot : decide (contentType = "rootdir") = false →
        ∀ s ∈ othersOf contentType (contentType = "rootdir") storages, s.storage ≠ requested := by
      intro hprefer s hs hname
      obtain ⟨hmem, hoffers, -, hactive⟩ := mem_othersOf.mp hs
      have hroot := of_decide_eq_false hprefer
      exact hearly ⟨hroot, s, hmem, hname, hoffers, hactive, fun h => absurd h hroot⟩
    have hend := searchStorage_eq_answer hseen hnamed hlisting.space hnot
    rw [List.nil_append] at hend
    rw [hend]
    constructor
    · intro hresolves hroot pre s post hsplit hname husable
      subst hsplit
      have hmem : s ∈ pre ++ s :: post := List.mem_append_right _ List.mem_cons_self
      have hkept := hresolves.keeps ⟨s, hmem, hname, husable⟩
      exact (answer_eq_iff hlisting hroot husable).mp (hkept.trans hname.symm)
    · intro hlargest
      refine ⟨?_, fun _ => answer_isBest, answer_of_not_eligible⟩
      rintro ⟨s, hs, hname, husable⟩
      have hroot : contentType = "rootdir" := by
        by_contra hroot
        exact hearly ⟨hroot, s, hs, hname, husable⟩
      obtain ⟨pre, post, rfl⟩ := List.append_of_mem hs
      exact ((answer_eq_iff hlisting hroot husable).mpr
        (hlargest hroot pre s post rfl hname husable)).trans hname

theorem pickStorage_of_read {node : Node} {ended : Ended} (hended : ended.failure = none)
    (hread : node.readStorages ended.stdout = some storages) :
    pickStorage node requested contentType ended =
      searchStorage requested contentType (contentType = "rootdir") ⟨"", -1, "", -1⟩ storages := by
  have hfine : ¬ ((execReply ended).err = true ∨ exitCode ended ≠ 0) := by
    rw [not_or, not_not, exitCode_eq_zero_iff]
    exact ⟨by simp [execReply, hended], hended⟩
  rw [pickStorage, if_neg hfine, hread]

theorem run_resolveStorage {node : Node} {q : Query} {ended : Ended} {result : String}
    (h : Run (resolveStorage node requested contentType) [(q, ended)] result) :
    result = pickStorage node requested contentType ended := by
  rw [resolveStorage] at h
  split_ifs at h
  · cases h
  · cases h with
    | ask ended tail =>
        cases tail
        rfl

/-- On a list that was read, the resolution keeps a usable storage and otherwise takes a best one
exactly if, for a root file system, the requested storage is not passed over. -/
theorem resolveStorage_resolves_iff {node : Node} {q : Query} {ended : Ended} {result : String}
    (hrun : Run (resolveStorage node requested contentType) [(q, ended)] result)
    (hended : ended.failure = none) (hread : node.readStorages ended.stdout = some storages)
    (hlisting : Listing storages) (hnamed : Named storages) :
    Resolves requested contentType storages result ↔
      RequestedLargest requested contentType storages := by
  rw [run_resolveStorage hrun, pickStorage_of_read hended hread]
  exact searchStorage_resolves_iff hlisting hnamed

end Result

/-! ## Two pools -/

def thinPool : NodeStorage := ⟨"local-lvm", "rootdir,images", "lvmthin", 1, 1, 100⟩

def zfsPool : NodeStorage := ⟨"tank", "rootdir,images", "zfspool", 1, 1, 200⟩

def poolsNode : Node := ⟨"pve", fun _ => some [thinPool, zfsPool]⟩

def poolsQuery : Query := (.pvesh, ["get", "/nodes/pve/storage", "--output-format", "json"])

def poolsEnded : Ended := ⟨"[]", "", none, false⟩

theorem listing_pools : Listing [thinPool, zfsPool] where
  distinct := by decide
  space := by simp [thinPool, zfsPool]

theorem named_pools : Named [thinPool, zfsPool] := by simp [Named, thinPool, zfsPool]

theorem run_pools {requested contentType result : String}
    (h : pickStorage poolsNode requested contentType poolsEnded = result) :
    Run (resolveStorage poolsNode requested contentType) [(poolsQuery, poolsEnded)] result := by
  subst h
  exact .ask poolsEnded (.ret _)

theorem local_lvm_kept_for_images :
    Resolves "local-lvm" "images" [thinPool, zfsPool] "local-lvm" :=
  (resolveStorage_resolves_iff (run_pools (by decide +kernel)) rfl rfl listing_pools
    named_pools).mpr fun h => absurd h (by decide)

theorem usable_thinPool : thinPool.Usable "rootdir" := ⟨⟨rfl, by decide⟩, rfl, fun _ => rfl⟩

/-- The requested pool is enabled, active, of blocks and has the content type, and another one
is taken because it has more space. -/
theorem local_lvm_passed_over :
    Listing [thinPool, zfsPool] ∧ Named [thinPool, zfsPool] ∧
      RequestedUsable "local-lvm" "rootdir" [thinPool, zfsPool] ∧
      Run (resolveStorage poolsNode "local-lvm" "rootdir") [(poolsQuery, poolsEnded)] "tank" ∧
      ¬ Resolves "local-lvm" "rootdir" [thinPool, zfsPool] "tank" := by
  have husable : RequestedUsable "local-lvm" "rootdir" [thinPool, zfsPool] :=
    ⟨thinPool, List.mem_cons_self, rfl, usable_thinPool⟩
  refine ⟨listing_pools, named_pools, husable, run_pools (by decide), fun h => ?_⟩
  have hkept := h.keeps husable
  revert hkept
  decide

end PmxAgents.Hypervisor
