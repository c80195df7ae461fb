import Mathlib.Data.List.Forall2
import Mathlib.Data.List.Sort

/-!
# Trees with any number of children

A tree is converted node by node, with the children of every node put in order. What it is
converted to mirrors it: the nodes correspond to each other in such a way that the children of a
node correspond to the children of its counterpart.
-/

namespace PmxAgents.Lib.RoseTree

theorem exists_mem_of_forall₂ {α β : Type*} {R : α → β → Prop} {l : List α} {r : List β}
    (h : List.Forall₂ R l r) {a : α} (ha : a ∈ l) : ∃ b ∈ r, R a b := by
  induction h with
  | nil => cases ha
  | cons hfirst _ ih =>
      rcases List.mem_cons.mp ha with rfl | hrest
      · exact ⟨_, List.mem_cons_self, hfirst⟩
      · obtain ⟨b, hb, hR⟩ := ih hrest
        exact ⟨b, List.mem_cons_of_mem _ hb, hR⟩

inductive Tree (L : Type*) where
  | node (label : L) (kids : List (Tree L))

variable {L M : Type*}

namespace Tree

def label : Tree L → L
  | node l _ => l

def kids : Tree L → List (Tree L)
  | node _ ks => ks

/-- Induction with the hypothesis for every child. -/
theorem inductionOn {P : Tree L → Prop} (node : ∀ l ks, (∀ t ∈ ks, P t) → P (.node l ks))
    (t : Tree L) : P t := by
  refine @Tree.rec L P (fun ks => ∀ t ∈ ks, P t) node ?_ ?_ t
  · exact List.forall_mem_nil _
  · exact fun t rest ht hrest => List.forall_mem_cons.mpr ⟨ht, hrest⟩

mutual

/-- The labels of all nodes. -/
def labels : Tree L → List L
  | node l ks => l :: labelsOf ks

def labelsOf : List (Tree L) → List L
  | [] => []
  | t :: rest => t.labels ++ labelsOf rest

end

theorem mem_labelsOf {l : L} {ks : List (Tree L)} : l ∈ labelsOf ks ↔ ∃ t ∈ ks, l ∈ t.labels := by
  induction ks with
  | nil => simp [labelsOf]
  | cons t rest ih => simp [labelsOf, ih]

theorem mem_labels {l : L} {t : Tree L} :
    l ∈ t.labels ↔ l = t.label ∨ ∃ k ∈ t.kids, l ∈ k.labels := by
  cases t with
  | node l' ks => rw [labels, List.mem_cons, mem_labelsOf, label, kids]

section Convert
variable (f : L → M) (le : M → M → Prop) [DecidableRel le]

mutual

/-- Convert the labels and put the children in order. -/
def convert : Tree L → Tree M
  | node l ks => node (f l) ((convertAll ks).insertionSort fun a b => le a.label b.label)

def convertAll : List (Tree L) → List (Tree M)
  | [] => []
  | t :: rest => t.convert :: convertAll rest

end

theorem convertAll_eq_map (ks : List (Tree L)) : convertAll f le ks = ks.map (convert f le) := by
  induction ks with
  | nil => simp only [convertAll, List.map_nil]
  | cons t rest ih => simp only [convertAll, ih, List.map_cons]

@[simp] theorem label_convert (t : Tree L) : (t.convert f le).label = f t.label := by
  cases t with
  | node l ks => rw [convert, label, label]

theorem kids_convert (t : Tree L) : (t.convert f le).kids =
    (t.kids.map (convert f le)).insertionSort fun a b => le a.label b.label := by
  cases t with
  | node l ks => rw [convert, kids, convertAll_eq_map, kids]

/-- The children may as well be put in order before they are converted. -/
theorem map_convert_insertionSort (ks : List (Tree L)) :
    (ks.insertionSort fun a b => le (f a.label) (f b.label)).map (convert f le) =
      (ks.map (convert f le)).insertionSort fun a b => le a.label b.label :=
  List.map_insertionSort _ _ _ _ fun a _ b _ => by rw [label_convert, label_convert]

end Convert

theorem mem_labels_convert {f : L → M} {le : M → M → Prop} [DecidableRel le] {t : Tree L} {m : M} :
    m ∈ (t.convert f le).labels ↔ ∃ l ∈ t.labels, m = f l := by
  induction t using inductionOn generalizing m with
  | node l ks ih =>
      rw [mem_labels, label_convert, kids_convert, kids]
      simp only [List.mem_insertionSort, List.mem_map, exists_exists_and_eq_and]
      constructor
      · rintro (rfl | ⟨k, hk, hm⟩)
        · exact ⟨l, by rw [labels]; exact List.mem_cons_self, rfl⟩
        · obtain ⟨l', hl', rfl⟩ := (ih k hk).mp hm
          exact ⟨l', mem_labels.mpr (.inr ⟨k, hk, hl'⟩), rfl⟩
      · rintro ⟨l', hl', rfl⟩
        rcases mem_labels.mp hl' with rfl | ⟨k, hk, hl'⟩
        · exact .inl rfl
        · exact .inr ⟨k, hk, (ih k hk).mpr ⟨l', hl', rfl⟩⟩

end Tree

open Tree

/-- The second tree has the nodes of the first one, with the same parents, with related labels, and
siblings are in order. -/
inductive Mirrors (R : L → M → Prop) (le : M → M → Prop) : Tree L → Tree M → Prop
  | node {t : Tree L} {u : Tree M} {ks : List (Tree L)} (label : R t.label u.label)
      (perm : ks.Perm t.kids) (kids : List.Forall₂ (Mirrors R le) ks u.kids)
      (sorted : u.kids.Pairwise fun a b => le a.label b.label) : Mirrors R le t u

/-- The same for all the children of a node. -/
def MirrorsAll (R : L → M → Prop) (le : M → M → Prop) (ks : List (Tree L)) (us : List (Tree M)) :
    Prop :=
  ∃ ks', ks'.Perm ks ∧ List.Forall₂ (Mirrors R le) ks' us ∧
    us.Pairwise fun a b => le a.label b.label

section Mirrors
variable {R : L → M → Prop} {le : M → M → Prop}

theorem mirrors_iff {t : Tree L} {u : Tree M} :
    Mirrors R le t u ↔ R t.label u.label ∧ MirrorsAll R le t.kids u.kids := by
  constructor
  · rintro ⟨hlabel, hperm, hkids, hsorted⟩
    exact ⟨hlabel, _, hperm, hkids, hsorted⟩
  · rintro ⟨hlabel, ks, hperm, hkids, hsorted⟩
    exact .node hlabel hperm hkids hsorted

/-- Every child has a counterpart. -/
theorem MirrorsAll.exists_mem {ks : List (Tree L)} {us : List (Tree M)} (h : MirrorsAll R le ks us)
    {k : Tree L} (hk : k ∈ ks) : ∃ u ∈ us, Mirrors R le k u := by
  obtain ⟨ks', hperm, hkids, -⟩ := h
  exact exists_mem_of_forall₂ hkids (hperm.mem_iff.mpr hk)

/-- Every node has a counterpart. -/
theorem Mirrors.exists_mem_labels {t : Tree L} {u : Tree M} (h : Mirrors R le t u) {l : L}
    (hl : l ∈ t.labels) : ∃ m ∈ u.labels, R l m := by
  induction t using inductionOn generalizing u l with
  | node l' ks ih =>
      obtain ⟨hlabel, hkids⟩ := mirrors_iff.mp h
      rcases mem_labels.mp hl with rfl | ⟨k, hk, hl⟩
      · exact ⟨u.label, mem_labels.mpr (.inl rfl), hlabel⟩
      · obtain ⟨u', hu', hmirrors⟩ := hkids.exists_mem hk
        obtain ⟨m, hm, hR⟩ := ih k hk hmirrors hl
        exact ⟨m, mem_labels.mpr (.inr ⟨u', hu', hm⟩), hR⟩

section Convert
variable [DecidableRel le] [Std.Total le] [IsTrans M le] {f : L → M}

theorem mirrorsAll_of_forall {ks : List (Tree L)} (h : ∀ t ∈ ks, Mirrors R le t (t.convert f le)) :
    MirrorsAll R le ks ((ks.map (convert f le)).insertionSort fun a b => le a.label b.label) := by
  have : Std.Total fun a b : Tree M => le a.label b.label := ⟨fun a b => Std.Total.total _ _⟩
  have : IsTrans (Tree M) fun a b => le a.label b.label := ⟨fun a b c => IsTrans.trans _ _ _⟩
  refine ⟨ks.insertionSort fun a b => le (f a.label) (f b.label), List.perm_insertionSort _ ks, ?_,
    List.pairwise_insertionSort _ _⟩
  rw [← map_convert_insertionSort, List.forall₂_map_right_iff, List.forall₂_same]
  exact fun t ht => h t ((List.mem_insertionSort _).mp ht)

theorem mirrors_convert {t : Tree L} (h : ∀ l ∈ t.labels, R l (f l)) :
    Mirrors R le t (t.convert f le) := by
  induction t using inductionOn with
  | node l ks ih =>
      refine mirrors_iff.mpr ⟨?_, ?_⟩
      · rw [label_convert]
        exact h _ (mem_labels.mpr (.inl rfl))
      · rw [kids_convert]
        exact mirrorsAll_of_forall fun k hk => ih k hk fun l' hl' =>
          h l' (mem_labels.mpr (.inr ⟨k, hk, hl'⟩))

end Convert

end Mirrors

end PmxAgents.Lib.RoseTree
