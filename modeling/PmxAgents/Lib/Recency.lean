import Mathlib.Data.List.Dedup
import Mathlib.Data.List.Nodup
import Mathlib.Data.List.Perm.Subperm
import Mathlib.Order.Lattice

/-!
# Bounded recency lists

A recency list holds at most one entry per key, oldest first. Touching a known
key moves it to the back; a new key at full capacity pushes out the front.
Entries can also be dropped from the front while they are too old.

The list is the abstract content of a bounded replay or recency cache: what the
cache remembers, in which order, and what the next insertion would forget.
-/

namespace PmxAgents.Lib.Recency

section Keys
variable {κ τ : Type*}

/-- The keys of a recency list, oldest first. -/
def keys (es : List (κ × τ)) : List κ := es.map Prod.fst

@[simp] theorem keys_nil : keys ([] : List (κ × τ)) = [] := rfl

@[simp] theorem keys_cons (e : κ × τ) (es : List (κ × τ)) :
    keys (e :: es) = e.1 :: keys es := rfl

@[simp] theorem keys_append (es fs : List (κ × τ)) :
    keys (es ++ fs) = keys es ++ keys fs := by
  simp [keys]

@[simp] theorem length_keys (es : List (κ × τ)) : (keys es).length = es.length := by
  simp [keys]

theorem keys_tail_sublist (es : List (κ × τ)) : (keys es.tail).Sublist (keys es) :=
  (List.tail_sublist es).map _

end Keys

variable {κ τ : Type*} [DecidableEq κ]

/-- Remove the entry of a key. -/
def forget (es : List (κ × τ)) (k : κ) : List (κ × τ) := es.filter fun e => e.1 ≠ k

/-- Insert or refresh a key at the back. Only a new key can push out the front. -/
def touch (cap : Nat) (es : List (κ × τ)) (k : κ) (t : τ) : List (κ × τ) :=
  if k ∈ keys es then forget es k ++ [(k, t)]
  else (if cap ≤ es.length then es.tail else es) ++ [(k, t)]

/-- Drop entries from the front while they are too old. -/
def expire (old : τ → Bool) (es : List (κ × τ)) : List (κ × τ) :=
  es.dropWhile fun e => old e.2

theorem keys_forget (es : List (κ × τ)) (k : κ) :
    keys (forget es k) = (keys es).filter fun j => j ≠ k := by
  simp [keys, forget, List.filter_map, Function.comp_def]

theorem lookup_eq_none {es : List (κ × τ)} {k : κ} :
    es.lookup k = none ↔ k ∉ keys es := by
  rw [List.lookup_eq_none_iff]
  constructor
  · intro h hk
    obtain ⟨e, he, hek⟩ := List.mem_map.mp hk
    simpa [hek] using h e he
  · intro h e he
    have hne : k ≠ e.1 := fun hk => h (hk ▸ List.mem_map_of_mem he)
    simpa using hne

/-- With one entry per key, looking up is membership. -/
theorem lookup_eq_some {es : List (κ × τ)} (hnd : (keys es).Nodup) {k : κ} {t : τ} :
    es.lookup k = some t ↔ (k, t) ∈ es := by
  induction es with
  | nil => simp
  | cons e rest ih =>
      obtain ⟨hnot, hrest⟩ := List.nodup_cons.mp hnd
      by_cases hk : k = e.1
      · have hfst : ∀ u, (k, u) ∉ rest := fun u hu => hnot (hk ▸ List.mem_map_of_mem hu)
        rw [List.lookup_cons, beq_iff_eq.mpr hk, List.mem_cons, or_iff_left (hfst t),
          Option.some.injEq, Prod.ext_iff]
        exact ⟨fun h => ⟨hk, h.symm⟩, fun h => h.2.symm⟩
      · rw [List.lookup_cons, beq_eq_false_iff_ne.mpr hk]
        simp [ih hrest, Prod.ext_iff, hk]

/-- The order of the entries does not matter to a reader. -/
theorem lookup_perm {es fs : List (κ × τ)} (hnd : (keys es).Nodup) (h : es.Perm fs) (k : κ) :
    es.lookup k = fs.lookup k := by
  have hnd' : (keys fs).Nodup := (h.map Prod.fst).nodup_iff.mp hnd
  apply Option.ext
  intro t
  rw [lookup_eq_some hnd, lookup_eq_some hnd', h.mem_iff]

theorem lookup_forget_ne {es : List (κ × τ)} {j k : κ} (h : j ≠ k) :
    (forget es k).lookup j = es.lookup j := by
  induction es with
  | nil => rfl
  | cons e rest ih =>
      obtain ⟨i, t⟩ := e
      by_cases hi : i = k
      · have hb : (j == i) = false := by simpa [hi] using h
        have hf : forget ((i, t) :: rest) k = forget rest k := by simp [forget, hi]
        rw [hf, List.lookup_cons, hb, ih]
      · have hf : forget ((i, t) :: rest) k = (i, t) :: forget rest k := by simp [forget, hi]
        rw [hf, List.lookup_cons, List.lookup_cons, ih]

theorem notMem_keys_forget (es : List (κ × τ)) (k : κ) : k ∉ keys (forget es k) := by
  simp [keys_forget]

/-- What an insertion leaves in front of the inserted entry. -/
theorem touch_eq (cap : Nat) (es : List (κ × τ)) (k : κ) (t : τ) :
    ∃ front : List (κ × τ), touch cap es k t = front ++ [(k, t)] ∧ k ∉ keys front ∧
      (keys front).Sublist (keys es) := by
  unfold touch
  split
  · refine ⟨forget es k, rfl, notMem_keys_forget es k, ?_⟩
    rw [keys_forget]
    exact List.filter_sublist
  · rename_i hk
    split
    · exact ⟨es.tail, rfl, fun hm => hk ((keys_tail_sublist es).subset hm),
        keys_tail_sublist es⟩
    · exact ⟨es, rfl, hk, List.Sublist.refl _⟩

/-- The admitted key is remembered with its new time. -/
theorem lookup_touch_self (cap : Nat) (es : List (κ × τ)) (k : κ) (t : τ) :
    (touch cap es k t).lookup k = some t := by
  obtain ⟨front, heq, hk, _⟩ := touch_eq cap es k t
  rw [heq, List.lookup_append, lookup_eq_none.mpr hk]
  simp

/-- Below capacity, or for a known key, no other key is forgotten. -/
theorem lookup_touch_ne {cap : Nat} {es : List (κ × τ)} {j k : κ} {t : τ} (h : j ≠ k)
    (hroom : k ∈ keys es ∨ es.length < cap) :
    (touch cap es k t).lookup j = es.lookup j := by
  have hlast : [(k, t)].lookup j = none := by simp [h]
  unfold touch
  split
  · rw [List.lookup_append, lookup_forget_ne h, hlast, Option.or_none]
  · rename_i hk
    have hlen : ¬ cap ≤ es.length := by
      rcases hroom with hm | hl
      · exact absurd hm hk
      · omega
    rw [if_neg hlen, List.lookup_append, hlast, Option.or_none]

/-- An insertion into a list within its capacity stays within it. -/
theorem length_touch_le {cap : Nat} {es : List (κ × τ)} {k : κ} {t : τ} (hcap : 1 ≤ cap)
    (h : es.length ≤ cap) : (touch cap es k t).length ≤ cap := by
  unfold touch
  split
  · rename_i hk
    -- the key that is moved to the back has left its place
    obtain ⟨e, he, hek⟩ := List.mem_map.mp hk
    have hlt : (forget es k).length < es.length := by
      apply List.length_filter_lt_length_iff_exists.mpr
      exact ⟨e, he, by simp [hek]⟩
    rw [List.length_append, List.length_singleton]
    omega
  · split
    · rw [List.length_append, List.length_tail, List.length_singleton]
      omega
    · rw [List.length_append, List.length_singleton]
      omega

theorem mem_keys_touch {cap : Nat} {es : List (κ × τ)} {j k : κ} {t : τ}
    (h : j ∈ keys (touch cap es k t)) : j = k ∨ j ∈ keys es := by
  obtain ⟨front, heq, _, hsub⟩ := touch_eq cap es k t
  rw [heq, keys_append, List.mem_append] at h
  rcases h with h | h
  · exact Or.inr (hsub.subset h)
  · exact Or.inl (by simpa using h)

omit [DecidableEq κ] in
/-- Expiry keeps the suffix that starts at the first entry young enough. -/
theorem expire_suffix (old : τ → Bool) (es : List (κ × τ)) : expire old es <:+ es :=
  List.dropWhile_suffix _

/-- An entry that is young enough survives expiry. -/
theorem lookup_expire {old : τ → Bool} {es : List (κ × τ)} {k : κ} {t : τ}
    (h : es.lookup k = some t) (hy : old t = false) :
    (expire old es).lookup k = some t := by
  induction es with
  | nil => simp at h
  | cons e rest ih =>
      obtain ⟨i, u⟩ := e
      by_cases hk : k = i
      · subst hk
        have hu : u = t := by simpa using h
        have hkeep : expire old ((k, u) :: rest) = (k, u) :: rest := by
          simp [expire, hu, hy]
        rw [hkeep]
        exact h
      · have hb : (k == i) = false := by simpa using hk
        have hrest : rest.lookup k = some t := by simpa [List.lookup_cons, hb] using h
        by_cases hold : old u = true
        · have hdrop : expire old ((i, u) :: rest) = expire old rest := by
            simp [expire, hold]
          rw [hdrop]
          exact ih hrest
        · have hkeep : expire old ((i, u) :: rest) = (i, u) :: rest := by
            simp [expire, hold]
          rw [hkeep]
          exact h

/-! ## Entries in the order of their times -/

section Ordered
variable [LinearOrder τ] {es fs : List (κ × τ)} {t now cutoff : τ}

/-- The entries stand in the order of their times, none of them later than an instant. -/
def Ordered (now : τ) (es : List (κ × τ)) : Prop :=
  es.Pairwise (fun a b => a.2 ≤ b.2) ∧ ∀ e ∈ es, e.2 ≤ now

omit [DecidableEq κ] in
theorem Ordered.sublist (h : Ordered t es) (hsub : fs.Sublist es)
    (hle : t ≤ now) : Ordered now fs :=
  ⟨h.1.sublist hsub, fun e he => le_trans (h.2 e (hsub.subset he)) hle⟩

omit [DecidableEq κ] in
theorem Ordered.concat (h : Ordered t es) (hle : t ≤ now) (k : κ) :
    Ordered now (es ++ [(k, now)]) := by
  refine ⟨List.pairwise_append.mpr ⟨h.1, List.pairwise_singleton _ _, ?_⟩, ?_⟩
  · intro a ha b hb
    rw [List.mem_singleton.mp hb]
    exact le_trans (h.2 a ha) hle
  · intro e he
    rcases List.mem_append.mp he with he | he
    · exact le_trans (h.2 e he) hle
    · rw [List.mem_singleton.mp he]

theorem Ordered.touch (h : Ordered t es) (hle : t ≤ now) (cap : Nat) (k : κ) :
    Ordered now (touch cap es k now) := by
  unfold Recency.touch
  split_ifs
  · exact (h.sublist List.filter_sublist le_rfl).concat hle k
  · exact (h.sublist (List.tail_sublist es) le_rfl).concat hle k
  · exact h.concat hle k

omit [DecidableEq κ] in
/-- Along rising times, dropping what is too old from the front drops all of it. -/
theorem dropWhile_eq_filter {α : Type*} {time : α → τ} {l : List α}
    (h : l.Pairwise fun a b => time a ≤ time b) :
    (l.dropWhile fun a => decide (time a ≤ cutoff)) =
      l.filter fun a => decide (cutoff < time a) := by
  induction l with
  | nil => rfl
  | cons a rest ih =>
      by_cases hold : time a ≤ cutoff
      · rw [List.dropWhile_cons, if_pos (by simpa using hold), List.filter_cons,
          if_neg (by simpa using hold)]
        exact ih (List.pairwise_cons.mp h).2
      · have hall : ∀ b ∈ a :: rest, cutoff < time b := by
          intro b hb
          rcases List.mem_cons.mp hb with rfl | hb
          · exact not_le.mp hold
          · exact lt_of_lt_of_le (not_le.mp hold) (List.rel_of_pairwise_cons h hb)
        rw [List.dropWhile_cons, if_neg (by simpa using hold),
          List.filter_eq_self.mpr fun b hb => decide_eq_true (hall b hb)]

omit [DecidableEq κ] in
theorem expire_eq_filter (h : Ordered now es) :
    expire (fun t => decide (t ≤ cutoff)) es = es.filter fun e => decide (cutoff < e.2) :=
  dropWhile_eq_filter h.1

end Ordered

/-! ## Who stands behind a key

A key is pushed out only from the front, so it survives as long as fewer than
`cap` different keys have been admitted behind it. -/

/-- The key is remembered, and every entry behind it is one of the listed keys. -/
def Behind (since : List κ) (k : κ) (t : τ) (es : List (κ × τ)) : Prop :=
  ∃ front back, es = front ++ (k, t) :: back ∧ k ∉ keys front ∧ ∀ j ∈ keys back, j ∈ since

theorem Behind.lookup {since : List κ} {k : κ} {t : τ} {es : List (κ × τ)}
    (h : Behind since k t es) : es.lookup k = some t := by
  obtain ⟨front, back, rfl, hk, _⟩ := h
  rw [List.lookup_append, lookup_eq_none.mpr hk]
  simp

/-- A freshly admitted key has nothing behind it. -/
theorem behind_touch_self (cap : Nat) (es : List (κ × τ)) (k : κ) (t : τ) (since : List κ) :
    Behind since k t (touch cap es k t) := by
  obtain ⟨front, heq, hk, _⟩ := touch_eq cap es k t
  exact ⟨front, [], heq, hk, by simp⟩

/-- Another admitted key moves behind; it cannot push the key out while fewer
than `cap` different keys have been admitted since. -/
theorem Behind.touch_ne {cap : Nat} {since : List κ} {j k : κ} {t u : τ}
    {es : List (κ × τ)} (hnd : (keys es).Nodup) (h : Behind since k t es) (hjk : j ≠ k)
    (hcap : (j :: since).dedup.length < cap) :
    Behind (j :: since) k t (touch cap es j u) := by
  obtain ⟨front, back, rfl, hk, hback⟩ := h
  have hsince : ∀ i ∈ keys (back ++ [(j, u)]), i ∈ j :: since := by
    intro i hi
    rw [keys_append, List.mem_append] at hi
    rcases hi with hi | hi
    · exact List.mem_cons_of_mem _ (hback i hi)
    · simpa using Or.inl (by simpa using hi)
  unfold touch
  split
  · have hne : k ≠ j := Ne.symm hjk
    refine ⟨forget front j, forget back j ++ [(j, u)], ?_, ?_, ?_⟩
    · simp [forget, hne]
    · intro hm
      rw [keys_forget] at hm
      exact hk (List.mem_filter.mp hm).1
    · intro i hi
      apply hsince i
      rw [keys_append, List.mem_append, keys_forget] at hi
      rw [keys_append, List.mem_append]
      rcases hi with hi | hi
      · exact Or.inl (List.mem_filter.mp hi).1
      · exact Or.inr hi
  · rename_i hnew
    split
    · rename_i hfull
      cases front with
      | nil =>
          exfalso
          have hsub : j :: keys back ⊆ j :: since := by
            intro i hi
            rcases List.mem_cons.mp hi with rfl | hi
            · simp
            · exact List.mem_cons_of_mem _ (hback i hi)
          have hndb : (j :: keys back).Nodup := by
            simp only [List.nil_append, keys_cons, List.mem_cons, not_or] at hnew
            exact List.nodup_cons.mpr ⟨hnew.2, (List.nodup_cons.mp hnd).2⟩
          have hlen : (j :: keys back).length ≤ (j :: since).dedup.length :=
            (List.subperm_of_subset hndb fun i hi => List.mem_dedup.mpr (hsub hi)).length_le
          simp only [List.nil_append, List.length_cons, length_keys] at hfull hlen
          omega
      | cons e front =>
          refine ⟨front, back ++ [(j, u)], by simp, ?_, hsince⟩
          intro hm
          exact hk (by simp [hm])
    · exact ⟨front, back ++ [(j, u)], by simp, hk, hsince⟩

omit [DecidableEq κ] in
/-- Expiry keeps a key that is young enough, with the same keys behind it. -/
theorem Behind.expire {old : τ → Bool} {since : List κ} {k : κ} {t : τ}
    {es : List (κ × τ)} (h : Behind since k t es) (hy : old t = false) :
    Behind since k t (expire old es) := by
  obtain ⟨front, back, rfl, hk, hback⟩ := h
  induction front with
  | nil =>
      refine ⟨[], back, ?_, by simp, hback⟩
      simp [Recency.expire, hy]
  | cons e front ih =>
      have hk' : k ∉ keys front := fun hm => hk (by simp [hm])
      by_cases hold : old e.2 = true
      · have hdrop : Recency.expire old (e :: front ++ (k, t) :: back) =
            Recency.expire old (front ++ (k, t) :: back) := by
          simp [Recency.expire, hold]
        rw [hdrop]
        exact ih hk'
      · refine ⟨e :: front, back, ?_, hk, hback⟩
        simp [Recency.expire, hold]

end PmxAgents.Lib.Recency
