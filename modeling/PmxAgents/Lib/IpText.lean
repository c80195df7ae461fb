import Mathlib.Algebra.Group.Nat.Defs
import Mathlib.Data.Nat.Notation
import PmxAgents.Lib.Text

/-!
# Texts of IP addresses

The notation of IPv4 and IPv6 addresses that the standard libraries of the modelled
languages read: four decimal numbers without leading zeros, or eight groups of up to
four hexadecimal digits, of which the last two may be written as an IPv4 address and
one run of zero groups may be left out.

## Implementation notes

The text is split at its separators first. That the parts of an accepted text are
short and consist of digits gives the bounds on its length and its characters.
-/

namespace PmxAgents.Lib.IpText

open Text

inductive Addr where
  | v4 (n : BitVec 32)
  | v6 (n : BitVec 128)
  deriving DecidableEq, Repr

def Addr.bits : Addr → ℕ
  | .v4 _ => 32
  | .v6 _ => 128

/-- The two addresses are of one kind and agree in their first bits. -/
def Addr.agree (len : ℕ) : Addr → Addr → Bool
  | .v4 a, .v4 b => a >>> (32 - len) = b >>> (32 - len)
  | .v6 a, .v6 b => a >>> (128 - len) = b >>> (128 - len)
  | _, _ => false

def isHexDigit (c : Char) : Bool :=
  c.isDigit || ('a' ≤ c && c ≤ 'f') || ('A' ≤ c && c ≤ 'F')

def hexDigit (c : Char) : ℕ :=
  if c.isDigit then c.toNat - '0'.toNat
  else if 'a' ≤ c ∧ c ≤ 'f' then c.toNat - 'a'.toNat + 10
  else c.toNat - 'A'.toNat + 10

/-- A decimal number below 256 without leading zeros. -/
def octet (s : List Char) : Option ℕ :=
  if s ≠ [] ∧ s.length ≤ 3 ∧ s.all Char.isDigit ∧ (s.head? = some '0' → s = ['0']) then
    let n := Nat.ofDigitChars 10 s 0
    if n ≤ 255 then some n else none
  else none

/-- Four decimal numbers with dots between them. -/
def quad (s : List Char) : Option (List ℕ) := do
  let octets ← (split '.' s).mapM octet
  if octets.length = 4 then some octets else none

/-- A group of one to four hexadecimal digits. -/
def group (s : List Char) : Option ℕ :=
  if s ≠ [] ∧ s.length ≤ 4 ∧ s.all isHexDigit then
    some (s.foldl (fun n c => 16 * n + hexDigit c) 0)
  else none

/-- The words of an IPv4 address in the last place of an IPv6 address. -/
def pairUp : List ℕ → List ℕ
  | a :: b :: rest => (256 * a + b) :: pairUp rest
  | l => l

/-- The words of groups with colons between them; the last one may be an IPv4 address. -/
def words : List (List Char) → Option (List ℕ)
  | [] => some []
  | [g] => ((group g).map fun w => [w]) <|> (quad g).map pairUp
  | g :: rest => do
      let w ← group g
      let ws ← words rest
      some (w :: ws)

/-- The text before and after the first double colon. -/
def cutGap : List Char → Option (List Char × List Char)
  | [] => none
  | c :: rest =>
      if c = ':' ∧ rest.head? = some ':' then some ([], rest.drop 1)
      else (cutGap rest).map fun p => (c :: p.1, p.2)

/-- The words of one side of a double colon, where nothing may stand. -/
def side (read : List (List Char) → Option (List ℕ)) (s : List Char) : Option (List ℕ) :=
  if s = [] then some [] else read (split ':' s)

def parse6 (s : List Char) : Option (List ℕ) :=
  match cutGap s with
  | none => do
      let ws ← words (split ':' s)
      if ws.length = 8 then some ws else none
  | some (l, r) => do
      let left ← side (List.mapM group) l
      let right ← side words r
      if left.length + right.length ≤ 7 then
        some (left ++ List.replicate (8 - (left.length + right.length)) 0 ++ right)
      else none

def parse (s : List Char) : Option Addr :=
  match quad s with
  | some octets => some (.v4 (BitVec.ofNat 32 (octets.foldl (fun n o => 256 * n + o) 0)))
  | none => (parse6 s).map fun ws => .v6 (BitVec.ofNat 128 (ws.foldl (fun n w => 65536 * n + w) 0))

/-- An address, with a zone if it is an IPv6 address. -/
def parseAddr (s : List Char) : Option Addr :=
  if '%' ∈ s then
    if (s.dropWhile (· ≠ '%')).drop 1 = [] then none
    else
      match parse (before '%' s) with
      | some (.v6 n) => some (.v6 n)
      | _ => none
  else parse s

/-- A decimal number without leading zeros. -/
def prefixLength (s : List Char) : Option ℕ :=
  if s ≠ [] ∧ s.all Char.isDigit ∧ (1 < s.length → s.head? ≠ some '0') then
    some (Nat.ofDigitChars 10 s 0)
  else none

/-- An address without a zone and the number of its first bits that count, after the last slash. -/
def parsePrefix (s : List Char) : Option (Addr × ℕ) :=
  if '/' ∈ s then do
    let bits := (s.reverse.takeWhile (· ≠ '/')).reverse
    let addr ← parse (s.take (s.length - (bits.length + 1)))
    let len ← prefixLength bits
    if len ≤ addr.bits then some (addr, len) else none
  else none

/-- An address without a zone and a decimal number of bits after the first slash, which may have
leading zeros. -/
def parseCIDR (s : List Char) : Option (Addr × ℕ) :=
  let addr := before '/' s
  let mask := s.drop (addr.length + 1)
  match parse addr with
  | none => none
  | some a =>
      if '/' ∈ s ∧ mask ≠ [] ∧ mask.all Char.isDigit ∧ Nat.ofDigitChars 10 mask 0 ≤ a.bits then
        some (a, Nat.ofDigitChars 10 mask 0)
      else none

/-- The four bytes of an address that has them, also as one of the longer kind. -/
def Addr.to4 : Addr → Option (BitVec 32)
  | .v4 a => some a
  | .v6 a => if a >>> 32 = 0xffff#128 then some (a.setWidth 32) else none

/-! ## What an accepted text looks like -/

/-- The characters that occur in addresses. -/
def isAddrChar (c : Char) : Bool := isHexDigit c || c == ':' || c == '.'

section Shape
variable {s : List Char}

theorem octet_shape {n : ℕ} (h : octet s = some n) : s.length ≤ 3 ∧ ∀ c ∈ s, isAddrChar c := by
  rw [octet] at h
  split_ifs at h with hs
  obtain ⟨-, hlength, hdigits, -⟩ := hs
  refine ⟨hlength, fun c hc => ?_⟩
  have hdigit : c.isDigit = true := List.all_eq_true.mp hdigits c hc
  simp [isAddrChar, isHexDigit, hdigit]

theorem group_shape {n : ℕ} (h : group s = some n) : s.length ≤ 4 ∧ ∀ c ∈ s, isAddrChar c := by
  rw [group] at h
  split_ifs at h with hs
  refine ⟨hs.2.1, fun c hc => ?_⟩
  have hdigit : isHexDigit c = true := List.all_eq_true.mp hs.2.2 c hc
  simp [isAddrChar, hdigit]

/-- Texts that are all read one by one are as many as what is read from them. -/
theorem mapM_shape {f : List Char → Option ℕ} {k : ℕ}
    (hf : ∀ s n, f s = some n → s.length ≤ k ∧ ∀ c ∈ s, isAddrChar c)
    {gs : List (List Char)} {ns : List ℕ} (h : gs.mapM f = some ns) :
    gs.length = ns.length ∧ ∀ g ∈ gs, g.length ≤ k ∧ ∀ c ∈ g, isAddrChar c := by
  induction gs generalizing ns with
  | nil =>
      obtain rfl : ns = [] := by simpa using h.symm
      simp
  | cons g rest ih =>
      rw [List.mapM_cons] at h
      obtain ⟨n, hn, hrest⟩ := Option.bind_eq_some_iff.mp h
      obtain ⟨ms, hms, heq⟩ := Option.bind_eq_some_iff.mp hrest
      obtain rfl : n :: ms = ns := by simpa using heq
      obtain ⟨hlength, hall⟩ := ih hms
      refine ⟨by simp [hlength], fun g' hg' => ?_⟩
      rcases List.mem_cons.mp hg' with rfl | hg'
      · exact hf _ _ hn
      · exact hall g' hg'

/-- The characters of a text are those of its parts and a separator. -/
theorem isAddrChar_of_split {sep : Char} (hsep : isAddrChar sep)
    (h : ∀ g ∈ split sep s, ∀ c ∈ g, isAddrChar c) : ∀ c ∈ s, isAddrChar c := by
  intro c hc
  obtain heq | ⟨g, hg, hcg⟩ : c = sep ∨ ∃ g ∈ split sep s, c ∈ g := mem_split hc
  · exact heq ▸ hsep
  · exact h g hg c hcg

theorem quad_shape {ns : List ℕ} (h : quad s = some ns) :
    ns.length = 4 ∧ s.length ≤ 15 ∧ ∀ c ∈ s, isAddrChar c := by
  obtain ⟨os, hos, hlen⟩ := Option.bind_eq_some_iff.mp h
  split_ifs at hlen with hfour
  obtain rfl := Option.some.inj hlen
  obtain ⟨hcount, hall⟩ := mapM_shape (fun s n => octet_shape) hos
  have hlength := length_lt_of_split fun g hg => (hall g hg).1
  rw [hcount, hfour] at hlength
  exact ⟨hfour, by omega, isAddrChar_of_split (by decide) fun g hg => (hall g hg).2⟩

theorem length_pairUp_of_four {ns : List ℕ} (h : ns.length = 4) : (pairUp ns).length = 2 := by
  obtain ⟨a, b, c, d, rfl⟩ := List.length_eq_four.mp h
  rfl

/-- What is read are short groups, each of which gives a word. -/
def ShortGroups (read : List (List Char) → Option (List ℕ)) : Prop :=
  ∀ gs ws, read gs = some ws →
    gs.length ≤ ws.length ∧ ∀ g ∈ gs, g.length ≤ 15 ∧ ∀ c ∈ g, isAddrChar c

theorem words_shape : ShortGroups words := by
  intro gs ws h
  induction gs generalizing ws with
  | nil => simp
  | cons g rest ih =>
      cases rest with
      | nil =>
          rw [words] at h
          cases hg : group g with
          | some w =>
              obtain rfl : [w] = ws := by simpa [hg] using h
              obtain ⟨hlength, hchars⟩ := group_shape hg
              simpa using And.intro (show g.length ≤ 15 by omega) hchars
          | none =>
              obtain ⟨ns, hns, rfl⟩ : ∃ ns, quad g = some ns ∧ pairUp ns = ws := by
                simpa [hg] using h
              obtain ⟨hfour, hlength, hchars⟩ := quad_shape hns
              simpa [length_pairUp_of_four hfour] using And.intro hlength hchars
      | cons g' rest =>
          rw [words] at h
          · obtain ⟨w, hw, h⟩ := Option.bind_eq_some_iff.mp h
            obtain ⟨vs, hvs, heq⟩ := Option.bind_eq_some_iff.mp h
            obtain rfl := Option.some.inj heq
            obtain ⟨hcount, hall⟩ := ih vs hvs
            obtain ⟨hlength, hchars⟩ := group_shape hw
            refine ⟨by simpa using hcount, fun g₀ hg₀ => ?_⟩
            rcases List.mem_cons.mp hg₀ with rfl | hg₀
            · exact ⟨by omega, hchars⟩
            · exact hall g₀ hg₀
          · simp

/-- A text of at most eight short groups. -/
theorem groups_shape {read : List (List Char) → Option (List ℕ)} (hread : ShortGroups read)
    {ws : List ℕ} (hws : ws.length ≤ 8) (h : read (split ':' s) = some ws) :
    s.length < 128 ∧ ∀ c ∈ s, isAddrChar c := by
  obtain ⟨hcount, hall⟩ := hread _ _ h
  have hlength := length_lt_of_split fun g hg => (hall g hg).1
  exact ⟨by omega, isAddrChar_of_split (by decide) fun g hg => (hall g hg).2⟩

theorem side_shape {read : List (List Char) → Option (List ℕ)} (hread : ShortGroups read)
    {ws : List ℕ} (hws : ws.length ≤ 8) (h : side read s = some ws) :
    s.length < 128 ∧ ∀ c ∈ s, isAddrChar c := by
  rw [side] at h
  split_ifs at h with hs
  · simp [hs]
  · exact groups_shape hread hws h

theorem eq_of_cutGap {l r : List Char} (h : cutGap s = some (l, r)) : s = l ++ ':' :: ':' :: r := by
  induction s generalizing l with
  | nil => cases h
  | cons c rest ih =>
      rw [cutGap] at h
      split_ifs at h with hgap
      · obtain ⟨rfl, rfl⟩ : [] = l ∧ rest.drop 1 = r := by simpa using h
        obtain ⟨rfl, hhead⟩ := hgap
        obtain ⟨rest', rfl⟩ := List.head?_eq_some_iff.mp hhead
        rfl
      · obtain ⟨p, hp, heq⟩ := Option.map_eq_some_iff.mp h
        obtain ⟨rfl, rfl⟩ : c :: p.1 = l ∧ p.2 = r := by simpa using heq
        rw [ih hp]
        rfl

theorem parse6_shape {ws : List ℕ} (h : parse6 s = some ws) :
    s.length < 258 ∧ ∀ c ∈ s, isAddrChar c := by
  rw [parse6] at h
  split at h
  · obtain ⟨vs, hvs, hlen⟩ := Option.bind_eq_some_iff.mp h
    split_ifs at hlen with height
    obtain ⟨hlength, hchars⟩ := groups_shape words_shape (by omega) hvs
    exact ⟨by omega, hchars⟩
  · rename_i l r hgap
    obtain ⟨left, hleft, h⟩ := Option.bind_eq_some_iff.mp h
    obtain ⟨right, hright, hlen⟩ := Option.bind_eq_some_iff.mp h
    split_ifs at hlen with hseven
    have hgroups : ShortGroups (List.mapM group) := by
      intro gs ws hgs
      obtain ⟨hcount, hall⟩ := mapM_shape (fun s n => group_shape) hgs
      exact ⟨hcount.le, fun g hg => ⟨by have := (hall g hg).1; omega, (hall g hg).2⟩⟩
    obtain ⟨hl, hlchars⟩ := side_shape hgroups (by omega) hleft
    obtain ⟨hr, hrchars⟩ := side_shape words_shape (by omega) hright
    rw [eq_of_cutGap hgap]
    refine ⟨by simp only [List.length_append, List.length_cons]; omega, fun c hc => ?_⟩
    rcases List.mem_append.mp hc with hc | hc
    · exact hlchars c hc
    · obtain rfl | hc : c = ':' ∨ c ∈ r := by simpa using hc
      · decide
      · exact hrchars c hc

/-- An accepted text is short and has only digits, colons and dots. -/
theorem parse_shape {a : Addr} (h : parse s = some a) :
    s.length < 258 ∧ ∀ c ∈ s, isAddrChar c := by
  rw [parse] at h
  split at h
  · rename_i hquad
    obtain ⟨-, hlength, hchars⟩ := quad_shape hquad
    exact ⟨by omega, hchars⟩
  · obtain ⟨ws, hws, -⟩ := Option.map_eq_some_iff.mp h
    exact parse6_shape hws

theorem parseCIDR_chars {a : Addr} {len : ℕ} (h : parseCIDR s = some (a, len)) :
    ∀ c ∈ s, isAddrChar c ∨ c = '/' := by
  rw [parseCIDR] at h
  split at h
  · cases h
  · rename_i a haddr
    split_ifs at h with hmask
    obtain ⟨hslash, -, hdigits, -⟩ := hmask
    intro c hc
    rw [eq_before_append hslash] at hc
    rcases List.mem_append.mp hc with hc | hc
    · exact .inl ((parse_shape haddr).2 c hc)
    · rcases List.mem_cons.mp hc with rfl | hc
      · exact .inr rfl
      · have hdigit : c.isDigit = true := List.all_eq_true.mp hdigits c hc
        exact .inl (by simp [isAddrChar, isHexDigit, hdigit])

end Shape

example : parse "10.0.0.1".toList = some (.v4 0x0a000001#32) := by decide

example : parse "fe80::1.2.3.4".toList =
    some (.v6 0xfe800000000000000000000001020304#128) := by decide

example : parse "1:2:3:4:5:6:7::".toList =
    some (.v6 0x00010002000300040005000600070000#128) := by decide

example : (["10.0.0.01", "1.2.3", "1::2::3", ":::", "12345::", "1:2:3:4:5:6:7:8::", "1.2.3.4::"].all
    fun s => (parse s.toList).isNone) = true := by decide

end PmxAgents.Lib.IpText
