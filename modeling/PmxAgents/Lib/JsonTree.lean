import Mathlib.Algebra.Group.Nat.Defs
import Mathlib.Data.Int.Notation
import Mathlib.Data.Nat.Notation

/-!
# JSON trees

JSON texts by what they say. A text can be well formed and still have no value for a reader:
one that keeps numbers in binary64 and follows nested arrays and objects only so far refuses
numbers that are too large and texts that are too deep.
-/

namespace PmxAgents.Lib.JsonTree

/-- A JSON text. A number is its mantissa times a power of ten, and an object has its members in
the order of the text, with possible repetitions. -/
inductive Json where
  | null
  | bool (b : Bool)
  | number (mantissa exponent : ℤ)
  | string (s : String)
  | array (items : List Json)
  | object (members : List (String × Json))

mutual

/-- How deep arrays and objects are nested. -/
def Json.depth : Json → ℕ
  | .array items => depthItems items + 1
  | .object members => depthMembers members + 1
  | _ => 0

def depthItems : List Json → ℕ
  | [] => 0
  | v :: rest => max v.depth (depthItems rest)

def depthMembers : List (String × Json) → ℕ
  | [] => 0
  | (_, v) :: rest => max v.depth (depthMembers rest)

end

/-- The least magnitude that rounds to infinity in binary64. -/
def float64Bound : ℕ := 2 ^ 1024 - 2 ^ 970

def numberFits (mantissa exponent : ℤ) : Bool :=
  if 0 ≤ exponent then mantissa.natAbs * 10 ^ exponent.toNat < float64Bound
  else mantissa.natAbs < float64Bound * 10 ^ (-exponent).toNat

mutual

/-- Every number has a binary64 value. -/
def Json.numbersFit : Json → Bool
  | .number mantissa exponent => numberFits mantissa exponent
  | .array items => numbersFitItems items
  | .object members => numbersFitMembers members
  | _ => true

def numbersFitItems : List Json → Bool
  | [] => true
  | v :: rest => v.numbersFit && numbersFitItems rest

def numbersFitMembers : List (String × Json) → Bool
  | [] => true
  | (_, v) :: rest => v.numbersFit && numbersFitMembers rest

end

def maxNestingDepth : ℕ := 10000

/-- The text has a value. -/
def Json.readable (v : Json) : Bool := v.depth ≤ maxNestingDepth && v.numbersFit

/-- The value of a member; of several with one key the last counts. -/
def field (members : List (String × Json)) (key : String) : Option Json :=
  members.reverse.lookup key

end PmxAgents.Lib.JsonTree
