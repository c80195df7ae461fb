import Mathlib.Data.List.AList
import Mathlib.Data.List.Sort
import PmxAgents.Lib.Checks
import PmxAgents.Lib.FileSystem
import PmxAgents.Lib.Text

/-!
# Properties of ZFS datasets

`zfs.dataset.create` and `zfs.tune` pass properties on to `zfs`. Deduplication is to be switched on
with the consent of the caller only. Both commands compare the value with one spelling.

## Implementation notes

The values of the options are of any type; how they are formatted is an argument. A command
returns the arguments with which `zfs` is called, if it is, along with its result.
-/

namespace PmxAgents.Storage.Zfs

open Lib Lib.Text Lib.FileSystem

def allowedProps : List String := ["compression", "atime", "recordsize", "quota", "sync", "dedup"]

structure DatasetCreateParams (α : Type*) where
  dataset : String
  options : AList fun _ : String => α
  allowDedup : Bool

def isTokenChar (c : Char) : Bool :=
  c == '-' || c == '_' || c == '.' || c == ':' || c == '/' || ('a' ≤ c && c ≤ 'z') ||
    ('A' ≤ c && c ≤ 'Z') || ('0' ≤ c && c ≤ '9')

def isSafeToken (v : String) : Bool := trimSpace v ≠ "" ∧ v.toList.all isTokenChar

def isSafeDataset (v : String) : Bool := '/' ∈ v.toList ∧ isSafeToken v

def isSafeValue (v : String) : Bool := v.toList.all fun c => c ∉ "\n\r\x00;&|`$".toList

section Commands
variable {α : Type*} (sprintf : α → String) (zfs : List String → Option String)

def value (p : DatasetCreateParams α) (key : String) : String :=
  (p.options.lookup key).elim "<nil>" sprintf

end Commands

/-! ## What `zfs` is told -/

section Args
variable {α : Type*} {sprintf : α → String} {zfs : List String → Option String}

variable {p : DatasetCreateParams α} {args : List String}

/-- The checks other than the one for deduplication. -/
def Passable (sprintf : α → String) (p : DatasetCreateParams α) : Prop :=
  isSafeDataset p.dataset = true ∧
    ∀ key ∈ p.options.keys, key ∈ allowedProps ∧ isSafeValue (value sprintf p key) = true

variable {q : TuneParams}

end Args

end PmxAgents.Storage.Zfs
