import Mathlib.Data.List.AList
import Mathlib.Data.List.Lookmap
import Mathlib.Data.List.Nodup
import Mathlib.Data.List.Sort

/-!
# Settings in a list

A list of keys and values in which a key may occur many times. Who reads it takes the first value
of a key, or the last one, as it is with a map that is filled in the order of the list.
-/

namespace PmxAgents.Lib.Settings

variable {K V : Type*} {l : List (K × V)} {k : K} {v : V}

/-- The first value of the key. -/
def FirstAt (l : List (K × V)) (k : K) (v : V) : Prop :=
  ∃ before after, l = before ++ (k, v) :: after ∧ ∀ e ∈ before, e.1 ≠ k

/-- The last value of the key. -/
def LastAt (l : List (K × V)) (k : K) (v : V) : Prop :=
  ∃ before after, l = before ++ (k, v) :: after ∧ ∀ e ∈ after, e.1 ≠ k

theorem firstAt_reverse_iff : FirstAt l.reverse k v ↔ LastAt l k v := by
  constructor
  · rintro ⟨before, after, heq, hne⟩
    refine ⟨after.reverse, before.reverse, ?_, fun e he => hne e (List.mem_reverse.mp he)⟩
    rw [← List.reverse_reverse l, heq]
    simp
  · rintro ⟨before, after, rfl, hne⟩
    exact ⟨after.reverse, before.reverse, by simp, fun e he => hne e (List.mem_reverse.mp he)⟩

variable [DecidableEq K]

theorem lookup_eq_some_iff : l.lookup k = some v ↔ FirstAt l k v := by
  constructor
  · intro h
    induction l with
    | nil => cases h
    | cons e l ih =>
        obtain ⟨k', v'⟩ := e
        by_cases hk : k = k'
        · subst hk
          rw [List.lookup_cons_self, Option.some.injEq] at h
          exact ⟨[], l, by rw [h, List.nil_append], nofun⟩
        · rw [List.lookup_cons, beq_false_of_ne hk] at h
          obtain ⟨before, after, heq, hne⟩ := ih h
          refine ⟨(k', v') :: before, after, by rw [heq, List.cons_append], ?_⟩
          exact List.forall_mem_cons.mpr ⟨fun heq => hk heq.symm, hne⟩
  · rintro ⟨before, after, rfl, hne⟩
    rw [List.lookup_append, List.lookup_eq_none_iff.mpr, Option.none_or, List.lookup_cons_self]
    exact fun e he => bne_iff_ne.mpr fun heq => hne e he heq.symm

theorem FirstAt.unique {w : V} (h : FirstAt l k v) (h' : FirstAt l k w) : v = w :=
  Option.some.inj ((lookup_eq_some_iff.mpr h).symm.trans (lookup_eq_some_iff.mpr h'))

theorem LastAt.unique {w : V} (h : LastAt l k v) (h' : LastAt l k w) : v = w :=
  (firstAt_reverse_iff.mpr h).unique (firstAt_reverse_iff.mpr h')

theorem exists_firstAt_or (l : List (K × V)) (k : K) :
    (∃ v, FirstAt l k v) ∨ ∀ e ∈ l, e.1 ≠ k := by
  cases h : l.lookup k with
  | some v => exact .inl ⟨v, lookup_eq_some_iff.mp h⟩
  | none =>
      exact .inr fun e he heq => bne_iff_ne.mp (List.lookup_eq_none_iff.mp h e he) heq.symm

theorem exists_lastAt_or (l : List (K × V)) (k : K) :
    (∃ v, LastAt l k v) ∨ ∀ e ∈ l, e.1 ≠ k := by
  simpa only [firstAt_reverse_iff, List.mem_reverse] using exists_firstAt_or l.reverse k

omit [DecidableEq K] in
theorem FirstAt.mem (h : FirstAt l k v) : (k, v) ∈ l := by
  obtain ⟨before, after, rfl, -⟩ := h
  exact List.mem_append_right _ List.mem_cons_self

omit [DecidableEq K] in
theorem LastAt.mem (h : LastAt l k v) : (k, v) ∈ l :=
  List.mem_reverse.mp (firstAt_reverse_iff.mpr h).mem

/-- A map that is filled in order has the last value of every key. -/
theorem lookup_foldl_insert (l : List (K × V)) (m : AList fun _ : K => V) (k : K) :
    (l.foldl (fun out e => out.insert e.1 e.2) m).lookup k =
      (l.reverse.lookup k).or (m.lookup k) := by
  induction l generalizing m with
  | nil => rfl
  | cons e l ih =>
      obtain ⟨k', v'⟩ := e
      rw [List.foldl_cons, ih, List.reverse_cons, List.lookup_append, Option.or_assoc]
      congr 1
      by_cases hk : k = k'
      · subst hk
        rw [AList.lookup_insert, List.lookup_cons_self, Option.some_or]
      · rw [AList.lookup_insert_ne hk, List.lookup_cons, beq_false_of_ne hk, List.lookup_nil,
          Option.none_or]

end PmxAgents.Lib.Settings

/-! ## Pairs sorted by their keys -/

namespace PmxAgents.Lib.KeySort

variable {κ β γ : Type*}

/-- An order in which any two keys can be compared. -/
structure KeyOrder (le : κ → κ → Prop) : Prop where
  total : ∀ a b, le a b ∨ le b a
  trans : ∀ a b c, le a b → le b c → le a c
  antisymm : ∀ a b, le a b → le b a → a = b

/-- The pairs in the order of their keys. -/
def sortByKey (le : κ → κ → Prop) [DecidableRel le] (kvs : List (κ × β)) : List (κ × β) :=
  kvs.insertionSort fun a b => le a.1 b.1

section
variable {le le' : κ → κ → Prop} [DecidableRel le] [DecidableRel le'] {kvs : List (κ × β)}

theorem sortByKey_perm (le : κ → κ → Prop) [DecidableRel le] (kvs : List (κ × β)) :
    (sortByKey le kvs).Perm kvs :=
  List.perm_insertionSort _ kvs

@[simp] theorem mem_sortByKey {e : κ × β} : e ∈ sortByKey le kvs ↔ e ∈ kvs :=
  (sortByKey_perm le kvs).mem_iff

/-- Pairs with distinct keys are determined by their keys. -/
theorem eq_of_key_eq (hnd : (kvs.map Prod.fst).Nodup) {a b : κ × β} (ha : a ∈ kvs)
    (hb : b ∈ kvs) (h : a.1 = b.1) : a = b :=
  List.inj_on_of_nodup_map hnd ha hb h

end

end PmxAgents.Lib.KeySort
