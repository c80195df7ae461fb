import Mathlib.Data.Int.Notation
import Mathlib.Data.Nat.Notation

/-!
# Versions of Debian packages

A version is an epoch, an upstream version and a revision. Two parts are compared piece by piece:
a text without digits by the rank of its characters, where a tilde is before the end of the text
and letters are before all other characters, and then the number that follows it.
-/

namespace PmxAgents.Lib.DebianVersion

def rank (c : Char) : ℤ :=
  if c = '~' then -1 else if c.isAlpha then c.toNat else c.toNat + 256

def order (a b : ℤ) : Ordering := if a < b then .lt else if b < a then .gt else .eq

/-- A text without digits and the digits that follow it. -/
abbrev Piece := List Char × List Char

def push (c : Char) (pieces : List Piece) : List Piece :=
  if c.isDigit then
    match pieces with
    | ([], digits) :: rest => ([], c :: digits) :: rest
    | rest => ([], [c]) :: rest
  else
    match pieces with
    | (text, digits) :: rest => (c :: text, digits) :: rest
    | [] => [([c], [])]

def pieces (s : List Char) : List Piece := s.foldr push []

def compareText : List Char → List Char → Ordering
  | [], [] => .eq
  | [], d :: _ => order 0 (rank d)
  | c :: _, [] => order (rank c) 0
  | c :: cs, d :: ds => (order (rank c) (rank d)).then (compareText cs ds)

def comparePiece (p q : Piece) : Ordering :=
  (compareText p.1 q.1).then
    (order (Nat.ofDigitChars 10 p.2 0) (Nat.ofDigitChars 10 q.2 0))

/-- A part that ends early goes on with empty pieces. -/
def comparePart (s t : List Char) : Ordering :=
  let ps := pieces s
  let qs := pieces t
  let pad (l : List Piece) (n : ℕ) := l ++ List.replicate (n - l.length) ([], [])
  ((pad ps qs.length).zip (pad qs ps.length)).foldr
    (fun pair rest => (comparePiece pair.1 pair.2).then rest) .eq

structure Version where
  epoch : ℕ
  upstream : List Char
  revision : List Char

/-- The epoch ends at the first colon, the revision begins at the last hyphen. -/
def parse (s : List Char) : Version :=
  let (epoch, rest) :=
    if ':' ∈ s then (Nat.ofDigitChars 10 (s.takeWhile (· ≠ ':')) 0, (s.dropWhile (· ≠ ':')).drop 1)
    else (0, s)
  if '-' ∈ rest then
    ⟨epoch, ((rest.reverse.dropWhile (· ≠ '-')).drop 1).reverse,
      (rest.reverse.takeWhile (· ≠ '-')).reverse⟩
  else ⟨epoch, rest, []⟩

def compareVersions (s t : String) : Ordering :=
  let v := parse s.toList
  let w := parse t.toList
  ((order v.epoch w.epoch).then (comparePart v.upstream w.upstream)).then
    (comparePart v.revision w.revision)

def lt (s t : String) : Bool := compareVersions s t == .lt

example : lt "1.9" "1.10" ∧ ¬ lt "1.10" "1.9" ∧ lt "1.0~rc1-1" "1.0-1" ∧ lt "2.3-1" "1:0.1-1" ∧
    lt "7.88.1-10+deb12u5" "7.88.1-10+deb12u12" := by decide

end PmxAgents.Lib.DebianVersion
