import PmxAgents.Lib.FileSystem
import PmxAgents.Lib.RoseTree
import PmxAgents.Lib.Text

/-!
# The vdevs of a pool

`zfs.status` reports the tree of vdevs of each pool as `zpool status -j` shows it, with its types
reduced to a few known ones.

## Implementation notes

A map of the JSON text is the list of its values in the order in which they are visited; that
order is arbitrary, and so is the list. The keys of the maps below a pool are read by nobody. How a
character is changed to upper case is an argument.
-/

namespace PmxAgents.Storage.Zfs

open Lib Lib.Text Lib.FileSystem Lib.RoseTree

/-- What is told of a raw vdev besides the vdevs below it. -/
structure RawVdev where
  name : String
  vdevType : String
  state : String
  deriving DecidableEq, Repr

abbrev VdevRaw := RoseTree.Tree RawVdev

/-- What is reported of a vdev besides its children. -/
structure Vdev where
  name : String
  type : String
  state : String
  deriving DecidableEq, Repr

abbrev VdevInfo := RoseTree.Tree Vdev

/-- The root vdevs of a pool. -/
structure Pool where
  vdevs : List VdevRaw

/-- The type for a trimmed text in lower case. -/
def knownType (t : String) : String :=
  if t = "disk" ∨ t = "file" then "disk"
  else if t = "mirror" then "mirror"
  else if "raidz3".toList <+: t.toList then "raidz2"
  else if "raidz2".toList <+: t.toList then "raidz2"
  else if "raidz".toList <+: t.toList then "raidz1"
  else if t = "spare" then "spare"
  else if t = "cache" ∨ t = "l2cache" then "cache"
  else if t = "log" ∨ t = "slog" then "log"
  else "disk"

def normalizeVdevType (t : String) : String := knownType (Casing.toLower (trimSpace t))

section Conversion
variable (upper : Char → Char)

def toUpper (s : String) : String := String.ofList (s.toList.map upper)

def vdevInfo (v : RawVdev) : Vdev :=
  ⟨v.name, normalizeVdevType v.vdevType, toUpper upper (trimSpace v.state)⟩

theorem type_vdevInfo (v : RawVdev) :
    (vdevInfo upper v).type = normalizeVdevType v.vdevType := by
  rw [vdevInfo]

def byName (a b : Vdev) : Prop := nameLe a.name b.name

instance : DecidableRel byName := fun a b => inferInstanceAs (Decidable (nameLe a.name b.name))

def convertVdev (v : VdevRaw) : VdevInfo := v.convert (vdevInfo upper) byName

def sortedVdevs (m : List VdevRaw) : List VdevRaw :=
  m.insertionSort fun a b => nameLe a.label.name b.label.name

def poolVdevs (pool : Pool) : List VdevInfo :=
  pool.vdevs.flatMap fun root => (sortedVdevs root.kids).map (convertVdev upper)

/-- A text that cannot be decoded has no pools. -/
def parseZpoolStatusVdevs (parsed : Option (List (String × Pool))) :
    List (String × List VdevInfo) :=
  match parsed with
  | none => []
  | some pools => pools.map fun e => (e.1, poolVdevs upper e.2)

end Conversion

/-! ## Redundancy -/

inductive Redundancy where
  | none
  | mirror
  | raidz (parity : ℕ)
  | draid (parity : ℕ)
  deriving DecidableEq, Repr

/-- The redundancy that the text of a type stands for, whatever its case. -/
def redundancyOf (t : String) : Redundancy :=
  if t = "mirror" then .mirror
  else if "raidz3".toList <+: t.toList then .raidz 3
  else if "raidz2".toList <+: t.toList then .raidz 2
  else if "raidz".toList <+: t.toList then .raidz 1
  else if "draid3".toList <+: t.toList then .draid 3
  else if "draid2".toList <+: t.toList then .draid 2
  else if "draid".toList <+: t.toList then .draid 1
  else .none

def redundancy (t : String) : Redundancy := redundancyOf (Casing.toLower (trimSpace t))

/-- There is no reported type for it. -/
def Redundancy.isConflated : Redundancy → Bool
  | .raidz 3 => true
  | .draid _ => true
  | _ => false

/-- The reported type has the redundancy of the raw one unless there is no type for it. -/
theorem redundancy_knownType (t : String) :
    redundancy (knownType t) = redundancyOf t ↔ (redundancyOf t).isConflated = false := by
  rw [knownType]
  split_ifs with hdisk hmirror hraidz3 hraidz2 hraidz hspare hcache hlog
  · rcases hdisk with rfl | rfl <;> decide
  · subst hmirror
    decide
  · rw [redundancyOf, if_neg hmirror, if_pos hraidz3]
    decide
  · rw [redundancyOf, if_neg hmirror, if_neg hraidz3, if_pos hraidz2]
    decide
  · rw [redundancyOf, if_neg hmirror, if_neg hraidz3, if_neg hraidz2, if_pos hraidz]
    decide
  · subst hspare
    decide
  · rcases hcache with rfl | rfl <;> decide
  · rcases hlog with rfl | rfl <;> decide
  · rw [redundancyOf, if_neg hmirror, if_neg hraidz3, if_neg hraidz2, if_neg hraidz]
    split_ifs <;> decide

theorem redundancy_normalizeVdevType (t : String) :
    redundancy (normalizeVdevType t) = redundancy t ↔ (redundancy t).isConflated = false :=
  redundancy_knownType _

theorem isConflated_normalizeVdevType (t : String) :
    (redundancy (normalizeVdevType t)).isConflated = false := by
  rw [normalizeVdevType, knownType]
  split_ifs <;> decide

/-! ## The reported trees -/

section Trees
variable (upper : Char → Char)

/-- The name, the state in upper case and the redundancy of the vdev are reported. -/
structure Reports (raw : RawVdev) (info : Vdev) : Prop where
  name : info.name = raw.name
  state : info.state = toUpper upper (trimSpace raw.state)
  redundancy : redundancy info.type = redundancy raw.vdevType

/-- The reported vdevs mirror those below the roots, root by root. -/
def PoolReports (pool : Pool) (infos : List VdevInfo) : Prop :=
  ∃ blocks : List (List VdevInfo), infos = blocks.flatten ∧
    List.Forall₂ (fun root block => MirrorsAll (Reports upper) byName root.kids block)
      pool.vdevs blocks

variable {upper}

theorem reports_vdevInfo_iff {raw : RawVdev} :
    Reports upper raw (vdevInfo upper raw) ↔ (redundancy raw.vdevType).isConflated = false := by
  rw [← redundancy_normalizeVdevType, ← type_vdevInfo upper]
  exact ⟨Reports.redundancy, fun h => ⟨rfl, rfl, h⟩⟩

instance : Std.Total byName :=
  ⟨fun a b => le_total (a.name.toList.map Char.toNat) (b.name.toList.map Char.toNat)⟩

instance : IsTrans Vdev byName := ⟨fun _ _ _ => le_trans⟩

theorem map_convertVdev_sortedVdevs (ks : List VdevRaw) :
    (sortedVdevs ks).map (convertVdev upper) =
      (ks.map (convertVdev upper)).insertionSort fun a b => byName a.label b.label :=
  Tree.map_convert_insertionSort (vdevInfo upper) byName ks

/-- Vdevs that are mirrored by converted ones all have a type. -/
theorem not_conflated_of_mirrorsAll {ks : List VdevRaw} {us : List VdevInfo}
    (h : MirrorsAll (Reports upper) byName ks us) (hus : ∀ u ∈ us, ∃ k, u = convertVdev upper k)
    {v : RawVdev} (hv : v ∈ Tree.labelsOf ks) : (redundancy v.vdevType).isConflated = false := by
  obtain ⟨k, hk, hv⟩ := Tree.mem_labelsOf.mp hv
  obtain ⟨u, hu, hmirrors⟩ := h.exists_mem hk
  obtain ⟨m, hm, hreports⟩ := hmirrors.exists_mem_labels hv
  obtain ⟨k', rfl⟩ := hus u hu
  obtain ⟨v', -, rfl⟩ := Tree.mem_labels_convert.mp hm
  rw [← hreports.redundancy, type_vdevInfo]
  exact isConflated_normalizeVdevType v'.vdevType

theorem mirrorsAll_sortedVdevs {ks : List VdevRaw}
    (h : ∀ v ∈ Tree.labelsOf ks, (redundancy v.vdevType).isConflated = false) :
    MirrorsAll (Reports upper) byName ks ((sortedVdevs ks).map (convertVdev upper)) := by
  rw [map_convertVdev_sortedVdevs]
  refine mirrorsAll_of_forall fun k hk => mirrors_convert fun v hv => ?_
  exact reports_vdevInfo_iff.mpr (h v (Tree.mem_labelsOf.mpr ⟨k, hk, hv⟩))

/-- The vdevs of a pool are reported as they are exactly if there is a type for all of them. -/
theorem poolReports_iff {pool : Pool} :
    PoolReports upper pool (poolVdevs upper pool) ↔ ∀ root ∈ pool.vdevs,
      ∀ v ∈ Tree.labelsOf root.kids, (redundancy v.vdevType).isConflated = false := by
  constructor
  · rintro ⟨blocks, hflatten, hblocks⟩ root hroot v hv
    obtain ⟨block, hblock, hmirrors⟩ := exists_mem_of_forall₂ hblocks hroot
    refine not_conflated_of_mirrorsAll hmirrors (fun u hu => ?_) hv
    have hmem : u ∈ poolVdevs upper pool := hflatten ▸ List.mem_flatten_of_mem hblock hu
    obtain ⟨root', -, hu'⟩ := List.mem_flatMap.mp hmem
    obtain ⟨k, -, rfl⟩ := List.mem_map.mp hu'
    exact ⟨k, rfl⟩
  · intro h
    refine ⟨pool.vdevs.map fun root => (sortedVdevs root.kids).map (convertVdev upper), ?_, ?_⟩
    · rw [poolVdevs, List.flatMap_def]
    · rw [List.forall₂_map_right_iff, List.forall₂_same]
      exact fun root hroot => mirrorsAll_sortedVdevs (h root hroot)

/-- Every pool is reported under its name with a tree that mirrors its vdevs exactly if none of them
has triple parity or is of the distributed kind. -/
theorem status_reports_iff (upper : Char → Char) (pools : List (String × Pool)) :
    List.Forall₂ (fun e out => out.1 = e.1 ∧ PoolReports upper e.2 out.2) pools
        (parseZpoolStatusVdevs upper (some pools)) ↔
      ∀ e ∈ pools, ∀ root ∈ e.2.vdevs, ∀ v ∈ Tree.labelsOf root.kids,
        (redundancy v.vdevType).isConflated = false := by
  rw [parseZpoolStatusVdevs, List.forall₂_map_right_iff, List.forall₂_same]
  simp only [true_and, poolReports_iff]

end Trees

/-- A pool with one raidz3 vdev of two disks. -/
def triple : Pool :=
  ⟨[.node ⟨"tank", "root", "ONLINE"⟩ [.node ⟨"raidz3-0", "raidz3", "ONLINE"⟩
    [.node ⟨"sdb", "disk", "ONLINE"⟩ [], .node ⟨"sda", "disk", "ONLINE"⟩ []]]]⟩

/-- The vdev is reported as raidz2. -/
theorem triple_not_reported :
    (poolVdevs Char.toUpper triple).map Tree.label = [⟨"raidz3-0", "raidz2", "ONLINE"⟩] ∧
      ¬ List.Forall₂ (fun e out => out.1 = e.1 ∧ PoolReports Char.toUpper e.2 out.2)
        [("tank", triple)] (parseZpoolStatusVdevs Char.toUpper (some [("tank", triple)])) := by
  refine ⟨by decide, fun h => ?_⟩
  obtain ⟨⟨-, hreports⟩, -⟩ := List.forall₂_cons.mp h
  have hfalse := poolReports_iff.mp hreports _ List.mem_cons_self ⟨"raidz3-0", "raidz3", "ONLINE"⟩
    (by decide)
  exact absurd hfalse (by decide)

end PmxAgents.Storage.Zfs
