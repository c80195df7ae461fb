import Mathlib.Data.List.Nodup
import PmxAgents.Lib.Hex

/-!
# JSON objects of strings and integers

Records are written as one JSON object without white space between its tokens, and
read back from the bytes. Strings are byte strings: a byte that does not belong to
a UTF-8 sequence is written as the replacement character, so only valid strings are
read back unchanged.

A text that is cut off anywhere is no object. This follows without looking at the
cut: a reader that succeeds on a text succeeds in the same way on every
continuation of it, and what it leaves unread is continued too.

## Implementation notes

Values are strings and integers. The reader refuses every other value, white space
between tokens and escaped surrogates, which the writer does not produce.
-/

namespace PmxAgents.Lib.Json

open Cbor

/-! ## UTF-8 sequences -/

/-- A byte after the first one of a sequence. -/
def cont (x : UInt8) : Bool := 0x80 ≤ x && x ≤ 0xbf

/-- The second byte of a sequence that starts with `b`. Some ranges are narrower, against
overlong forms, surrogates and numbers that are too large. -/
def second (b x : UInt8) : Bool :=
  (if b = 0xe0 then 0xa0 else if b = 0xf0 then 0x90 else 0x80) ≤ x &&
    x ≤ (if b = 0xed then 0x9f else if b = 0xf4 then 0x8f else 0xbf)

/-- The length of the UTF-8 sequence a text starts with, zero if it starts with none. -/
def runeLen : Bytes → ℕ
  | [] => 0
  | b :: rest =>
      if b < 0x80 then 1
      else if 0xc2 ≤ b ∧ b ≤ 0xdf ∧ second b (rest.getD 0 0) then 2
      else if 0xe0 ≤ b ∧ b ≤ 0xef ∧ second b (rest.getD 0 0) ∧ cont (rest.getD 1 0) then 3
      else if 0xf0 ≤ b ∧ b ≤ 0xf4 ∧ second b (rest.getD 0 0) ∧ cont (rest.getD 1 0) ∧
        cont (rest.getD 2 0) then 4
      else 0

/-- A piece of a byte string: a character, or a byte that belongs to none. -/
inductive Rune where
  | ascii (b : UInt8)
  | multi (bytes : Bytes)
  | bad (b : UInt8)
  deriving DecidableEq, Repr

/-- The pieces of a text of at most `fuel` bytes. -/
def runesFuel : ℕ → Bytes → List Rune
  | 0, _ => []
  | _, [] => []
  | fuel + 1, b :: rest =>
      match runeLen (b :: rest) with
      | 0 => .bad b :: runesFuel fuel rest
      | 1 => .ascii b :: runesFuel fuel rest
      | n + 2 => .multi (b :: rest.take (n + 1)) :: runesFuel fuel (rest.drop (n + 1))

def runes (s : Bytes) : List Rune := runesFuel s.length s

/-- The UTF-8 encoding of the replacement character. -/
def replacement : Bytes := [0xef, 0xbf, 0xbd]

def Rune.bytes : Rune → Bytes
  | .ascii b => [b]
  | .multi bytes => bytes
  | .bad b => [b]

def Rune.replaced : Rune → Bytes
  | .bad _ => replacement
  | r => r.bytes

/-- The string that is read back: every stray byte replaced. -/
def sanitize (s : Bytes) : Bytes := (runes s).flatMap Rune.replaced

/-- The string is a sequence of characters. -/
def Valid (s : Bytes) : Prop := ∀ b, Rune.bad b ∉ runes s

/-! ## Writing -/

/-- The lower-case digit of a value below sixteen. -/
def hexDigit (v : UInt8) : UInt8 := if v < 10 then 0x30 + v else 0x57 + v

def escapeAscii (b : UInt8) : Bytes :=
  if b = 0x22 ∨ b = 0x5c then [0x5c, b]
  else if b = 0x08 then [0x5c, 0x62]
  else if b = 0x0c then [0x5c, 0x66]
  else if b = 0x0a then [0x5c, 0x6e]
  else if b = 0x0d then [0x5c, 0x72]
  else if b = 0x09 then [0x5c, 0x74]
  else if b < 0x20 ∨ b = 0x26 ∨ b = 0x3c ∨ b = 0x3e then
    [0x5c, 0x75, 0x30, 0x30, hexDigit (b / 16), hexDigit (b % 16)]
  else [b]

/-- Control characters, quotes, HTML characters and the two line separators are escaped. -/
def Rune.escape : Rune → Bytes
  | .ascii b => escapeAscii b
  | .multi bytes =>
      if bytes = [0xe2, 0x80, 0xa8] then [0x5c, 0x75, 0x32, 0x30, 0x32, 0x38]
      else if bytes = [0xe2, 0x80, 0xa9] then [0x5c, 0x75, 0x32, 0x30, 0x32, 0x39]
      else bytes
  | .bad _ => [0x5c, 0x75, 0x66, 0x66, 0x66, 0x64]

def quote (s : Bytes) : Bytes := 0x22 :: ((runes s).flatMap Rune.escape ++ [0x22])

def digits (n : ℕ) : Bytes := (Nat.toDigits 10 n).map fun c => UInt8.ofNat c.toNat

/-- An integer in decimal. -/
def decimal (i : ℤ) : Bytes := if i < 0 then 0x2d :: digits i.natAbs else digits i.natAbs

inductive Value where
  | string (s : Bytes)
  | int (i : ℤ)
  deriving DecidableEq, Repr

def Value.write : Value → Bytes
  | .string s => quote s
  | .int i => decimal i

/-- The value that is read back. -/
def Value.sanitize : Value → Value
  | .string s => .string (Json.sanitize s)
  | .int i => .int i

abbrev Member := Bytes × Value

def writeMember (m : Member) : Bytes := quote m.1 ++ 0x3a :: m.2.write

/-- The members after the first one, and the end of the object. -/
def writeRest (ms : List Member) : Bytes := ms.flatMap (fun m => 0x2c :: writeMember m) ++ [0x7d]

def writeObject : List Member → Bytes
  | [] => [0x7b, 0x7d]
  | m :: ms => 0x7b :: (writeMember m ++ writeRest ms)

/-! ## Reading -/

def unescape (c : UInt8) : Option UInt8 :=
  if c = 0x22 ∨ c = 0x5c ∨ c = 0x2f then some c
  else if c = 0x62 then some 0x08
  else if c = 0x66 then some 0x0c
  else if c = 0x6e then some 0x0a
  else if c = 0x72 then some 0x0d
  else if c = 0x74 then some 0x09
  else none

/-- The character of four hexadecimal digits, as UTF-8. -/
def hexRune (a b c d : UInt8) : Option Bytes := do
  let code := ((← Hex.digit a).toNat * 4096 + (← Hex.digit b).toNat * 256 +
    (← Hex.digit c).toNat * 16 + (← Hex.digit d).toNat)
  if 0xd800 ≤ code ∧ code ≤ 0xdfff then none
  else return String.utf8EncodeChar (Char.ofNat code)

/-- Put bytes in front of what a reader of strings returns. -/
def push (bytes : Bytes) (r : Option (Bytes × Bytes)) : Option (Bytes × Bytes) :=
  r.map fun p => (bytes ++ p.1, p.2)

/-- A string up to its closing quote, and the text after it. -/
def unquote : Bytes → Option (Bytes × Bytes)
  | [] => none
  | b :: rest =>
      if b = 0x22 then some ([], rest)
      else if b < 0x20 then none
      else if b = 0x5c then
        match rest with
        | 0x75 :: a :: b :: c :: d :: rest =>
            match hexRune a b c d with
            | some bytes => push bytes (unquote rest)
            | none => none
        | c :: rest =>
            match unescape c with
            | some x => push [x] (unquote rest)
            | none => none
        | [] => none
      else push [b] (unquote rest)

def isDigit (b : UInt8) : Bool := 0x30 ≤ b && b ≤ 0x39

def readNat (r : Bytes) : Option (ℕ × Bytes) :=
  if r.takeWhile isDigit = [] then none
  else some (Nat.ofDigitChars 10 ((r.takeWhile isDigit).map fun b => Char.ofNat b.toNat) 0,
    r.dropWhile isDigit)

def readValue : Bytes → Option (Value × Bytes)
  | [] => none
  | b :: r =>
      if b = 0x22 then (unquote r).map fun p => (.string p.1, p.2)
      else if b = 0x2d then (readNat r).map fun p => (.int (-p.1), p.2)
      else (readNat (b :: r)).map fun p => (.int p.1, p.2)

def readMember : Bytes → Option (Member × Bytes)
  | 0x22 :: r =>
      match unquote r with
      | some (key, 0x3a :: r) => (readValue r).map fun p => ((key, p.1), p.2)
      | _ => none
  | _ => none

/-- The members after the first one. Every round reads a byte, so the length of the text is
fuel enough. -/
def readRest : ℕ → Bytes → Option (List Member × Bytes)
  | 0, _ => none
  | fuel + 1, r =>
      match r with
      | 0x7d :: r => some ([], r)
      | 0x2c :: r => do
          let (m, r) ← readMember r
          let (ms, r) ← readRest fuel r
          return (m :: ms, r)
      | _ => none

def readObject : Bytes → Option (List Member × Bytes)
  | 0x7b :: r =>
      if r.head? = some 0x7d then some ([], r.tail)
      else do
        let (m, r) ← readMember r
        let (ms, r) ← readRest r.length r
        return (m :: ms, r)
  | _ => none

/-- The members of a text that is one object. -/
def parse (text : Bytes) : Option (List Member) :=
  match readObject text with
  | some (ms, []) => some ms
  | _ => none

/-! ## Fields of a record -/

/-- The value of a field; the last one counts. -/
def field (ms : List Member) (key : String) : Option Value := ms.reverse.lookup (utf8 key)

/-- A string field; the empty string when it is missing. -/
def stringField (ms : List Member) (key : String) : Option Bytes :=
  match field ms key with
  | none => some []
  | some (.string s) => some s
  | some (.int _) => none

/-- An integer field; zero when it is missing. -/
def intField (ms : List Member) (key : String) : Option ℤ :=
  match field ms key with
  | none => some 0
  | some (.int i) => some i
  | some (.string _) => none

/-- ASCII text as bytes. -/
def ofChars (text : List Char) : Bytes := text.map fun c => UInt8.ofNat c.toNat

/-- Bytes as the characters of the same numbers. -/
def toChars (bytes : Bytes) : List Char := bytes.map fun b => Char.ofNat b.toNat

example : parse (utf8 "\x7b\"a\":\"x\\n\\u00e9\",\"b\":-12\x7d") =
    some [(utf8 "a", .string (utf8 "x\né")), (utf8 "b", .int (-12))] := by decide

example : writeObject [(utf8 "a", .string (utf8 "<\n" ++ [0xff])), (utf8 "b", .int (-12))] =
    utf8 "\x7b\"a\":\"\\u003c\\n\\ufffd\",\"b\":-12\x7d" := by decide

/-! ## The pieces of a string -/

/-- What a piece of a string consists of. -/
def Rune.WellFormed : Rune → Prop
  | .ascii b => b < 0x80
  | .multi bytes => ∀ x ∈ bytes, 0x80 ≤ x
  | .bad _ => True

theorem le_of_cont {x : UInt8} (h : cont x) : 0x80 ≤ x := by
  simp only [cont, Bool.and_eq_true, decide_eq_true_eq] at h
  exact h.1

theorem le_of_second {b x : UInt8} (h : second b x) : 0x80 ≤ x := by
  simp only [second, Bool.and_eq_true, decide_eq_true_eq] at h
  refine UInt8.le_trans ?_ h.1
  split_ifs <;> decide

theorem runeLen_ascii {b : UInt8} (h : b < 0x80) (rest : Bytes) : runeLen (b :: rest) = 1 := by
  simp [runeLen, h]

theorem lt_of_runeLen_one {b : UInt8} {rest : Bytes} (h : runeLen (b :: rest) = 1) : b < 0x80 := by
  rw [runeLen] at h
  split_ifs at h with hb
  · exact hb
  all_goals omega

/-- The bytes of a sequence of two bytes or more are not ASCII. -/
theorem le_of_runeLen {b : UInt8} {rest : Bytes} {n : ℕ} (h : runeLen (b :: rest) = n + 2) :
    0x80 ≤ b ∧ ∀ i ≤ n, 0x80 ≤ rest.getD i 0 := by
  rw [runeLen] at h
  split_ifs at h with hb h₂ h₃ h₄
  · omega
  · refine ⟨UInt8.not_lt.mp hb, fun i hi => ?_⟩
    obtain rfl : i = 0 := by omega
    exact le_of_second h₂.2.2
  · refine ⟨UInt8.not_lt.mp hb, fun i hi => ?_⟩
    obtain rfl | rfl : i = 0 ∨ i = 1 := by omega
    · exact le_of_second h₃.2.2.1
    · exact le_of_cont h₃.2.2.2
  · refine ⟨UInt8.not_lt.mp hb, fun i hi => ?_⟩
    obtain rfl | rfl | rfl : i = 0 ∨ i = 1 ∨ i = 2 := by omega
    · exact le_of_second h₄.2.2.1
    · exact le_of_cont h₄.2.2.2.1
    · exact le_of_cont h₄.2.2.2.2

theorem wellFormed_of_mem {fuel : ℕ} {s : Bytes} {r : Rune} (h : r ∈ runesFuel fuel s) :
    r.WellFormed := by
  fun_induction runesFuel fuel s with
  | case1 => cases h
  | case2 => cases h
  | case3 fuel b rest hlen ih =>
      rcases List.mem_cons.mp h with rfl | h
      · trivial
      · exact ih h
  | case4 fuel b rest hlen ih =>
      rcases List.mem_cons.mp h with rfl | h
      · exact lt_of_runeLen_one hlen
      · exact ih h
  | case5 fuel b rest n hlen ih =>
      rcases List.mem_cons.mp h with rfl | h
      · obtain ⟨hb, hrest⟩ := le_of_runeLen hlen
        refine List.forall_mem_cons.mpr ⟨hb, fun x hx => ?_⟩
        obtain ⟨i, hi, rfl⟩ := List.mem_take_iff_getElem.mp hx
        have hget := hrest i (by omega)
        have hlt : i < rest.length := by omega
        simpa [hlt] using hget
      · exact ih h

theorem flatMap_bytes {fuel : ℕ} {s : Bytes} (h : s.length ≤ fuel) :
    (runesFuel fuel s).flatMap Rune.bytes = s := by
  fun_induction runesFuel fuel s with
  | case1 s => exact (List.length_eq_zero_iff.mp (Nat.le_zero.mp h)).symm
  | case2 => rfl
  | case3 fuel b rest _ ih => simp [Rune.bytes, ih (Nat.le_of_succ_le_succ h)]
  | case4 fuel b rest _ ih => simp [Rune.bytes, ih (Nat.le_of_succ_le_succ h)]
  | case5 fuel b rest n _ ih =>
      have hdrop : (rest.drop (n + 1)).length ≤ fuel := by
        rw [List.length_drop]
        exact (Nat.sub_le _ _).trans (Nat.le_of_succ_le_succ h)
      simp [Rune.bytes, ih hdrop]

/-- A valid string is read back unchanged. -/
theorem sanitize_eq {s : Bytes} (h : Valid s) : sanitize s = s := by
  have hbytes : (runes s).flatMap Rune.replaced = (runes s).flatMap Rune.bytes := by
    refine List.flatMap_congr fun r hr => ?_
    cases r with
    | ascii b => rfl
    | multi bytes => rfl
    | bad b => exact absurd hr (h b)
  rw [sanitize, hbytes]
  exact flatMap_bytes (Nat.le_refl _)

theorem length_flatMap_replaced (rs : List Rune) :
    (rs.flatMap Rune.bytes).length ≤ (rs.flatMap Rune.replaced).length ∧
      ((rs.flatMap Rune.bytes).length = (rs.flatMap Rune.replaced).length →
        ∀ b, Rune.bad b ∉ rs) := by
  induction rs with
  | nil => simp
  | cons r rest ih =>
      obtain ⟨hle, heq⟩ := ih
      cases r with
      | bad b =>
          simp only [List.flatMap_cons, List.length_append, Rune.bytes, Rune.replaced, replacement,
            List.length_cons, List.length_nil]
          exact ⟨by omega, fun h => absurd h (by omega)⟩
      | _ =>
          simp only [List.flatMap_cons, List.length_append, Rune.replaced, List.mem_cons,
            reduceCtorEq, false_or]
          exact ⟨by omega, fun h => heq (by omega)⟩

/-- Only a valid string is read back unchanged. -/
theorem sanitize_eq_iff {s : Bytes} : sanitize s = s ↔ Valid s := by
  refine ⟨fun h => (length_flatMap_replaced (runes s)).2 ?_, sanitize_eq⟩
  rw [show (runes s).flatMap Rune.replaced = s from h]
  exact congrArg List.length (flatMap_bytes (Nat.le_refl _))

theorem toChars_ofChars {text : List Char} (h : ∀ c ∈ text, c.toNat < 128) :
    toChars (ofChars text) = text := by
  rw [toChars, ofChars, List.map_map]
  conv_rhs => rw [← List.map_id text]
  refine List.map_congr_left fun c hc => ?_
  have hlt : c.toNat < 256 := Nat.lt_trans (h c hc) (by decide)
  simp [Nat.mod_eq_of_lt hlt]

theorem valid_ofChars {text : List Char} (h : ∀ c ∈ text, c.toNat < 128) :
    ∀ b ∈ ofChars text, b < 0x80 := by
  intro b hb
  obtain ⟨c, hc, rfl⟩ := List.mem_map.mp hb
  have hlt := h c hc
  rw [UInt8.lt_iff_toNat_lt, UInt8.toNat_ofNat', Nat.mod_eq_of_lt (by omega)]
  exact hlt

theorem valid_of_ascii {s : Bytes} (h : ∀ b ∈ s, b < 0x80) : Valid s := by
  have hfuel : ∀ (fuel : ℕ) (s : Bytes), (∀ b ∈ s, b < 0x80) →
      ∀ b, Rune.bad b ∉ runesFuel fuel s := by
    intro fuel
    induction fuel with
    | zero => simp [runesFuel]
    | succ fuel ih =>
        intro s hs b
        cases s with
        | nil => simp [runesFuel]
        | cons c rest =>
            have hrest := ih rest (fun x hx => hs x (by simp [hx])) b
            simpa [runesFuel, runeLen_ascii (hs c (by simp))] using hrest
  exact hfuel s.length s h

/-! ## The encoding of characters -/

theorem toNat_ofNat_of_lt {n : ℕ} (h : n < 256) : (UInt8.ofNat n).toNat = n := by
  rw [UInt8.toNat_ofNat', Nat.mod_eq_of_lt h]

theorem cont_ofNat {x : ℕ} (hx : x < 64) : cont (UInt8.ofNat (x + 128)) = true := by
  have hbyte := toNat_ofNat_of_lt (show x + 128 < 256 by omega)
  simp only [cont, Bool.and_eq_true, decide_eq_true_iff, UInt8.le_iff_toNat_le, hbyte,
    UInt8.reduceToNat]
  omega

theorem second_ofNat {b x : ℕ} (hb : b < 256) (hx : x < 64) (he0 : b = 0xe0 → 32 ≤ x)
    (hf0 : b = 0xf0 → 16 ≤ x) (hed : b = 0xed → x < 32) (hf4 : b = 0xf4 → x < 16) :
    second (UInt8.ofNat b) (UInt8.ofNat (x + 128)) = true := by
  have hbyte := toNat_ofNat_of_lt (show x + 128 < 256 by omega)
  simp only [second, Bool.and_eq_true, decide_eq_true_iff, UInt8.le_iff_toNat_le, hbyte,
    ← UInt8.toNat_inj, toNat_ofNat_of_lt hb, apply_ite UInt8.toNat, UInt8.reduceToNat]
  constructor <;> split_ifs <;> omega

/-- The encoding of a character is one sequence; the cases are its one to four bytes. -/
theorem runeLen_utf8EncodeChar (c : Char) (rest : Bytes) :
    runeLen (String.utf8EncodeChar c ++ rest) = (String.utf8EncodeChar c).length := by
  have hv : c.val.toNat < 0xd800 ∨ 0xdfff < c.val.toNat ∧ c.val.toNat < 0x110000 := c.valid
  rw [String.utf8EncodeChar]
  generalize c.val.toNat = v at hv
  split_ifs with h₁ h₂ h₃
  · refine runeLen_ascii ?_ rest
    rw [UInt8.lt_iff_toNat_lt, toNat_ofNat_of_lt (by omega)]
    exact Nat.lt_of_le_of_lt h₁ (by decide)
  · have hfirst : v / 64 % 32 + 192 < 256 := by omega
    have hsecond : second (UInt8.ofNat (v / 64 % 32 + 192)) (UInt8.ofNat (v % 64 + 128)) = true :=
      second_ofNat hfirst (by omega) (by omega) (by omega) (by omega) (by omega)
    simp only [List.cons_append, runeLen, List.getD_cons_zero, hsecond, UInt8.lt_iff_toNat_lt,
      UInt8.le_iff_toNat_le, toNat_ofNat_of_lt hfirst, UInt8.reduceToNat,
      and_true]
    rw [if_neg (by omega), if_pos (by omega)]
    rfl
  · have hfirst : v / 4096 % 16 + 224 < 256 := by omega
    have hsecond : second (UInt8.ofNat (v / 4096 % 16 + 224))
        (UInt8.ofNat (v / 64 % 64 + 128)) = true :=
      second_ofNat hfirst (by omega) (by omega) (by omega) (by omega) (by omega)
    have hthird : cont (UInt8.ofNat (v % 64 + 128)) = true := cont_ofNat (by omega)
    simp only [List.cons_append, runeLen, List.getD_cons_zero, List.getD_cons_succ, hsecond, hthird,
      UInt8.lt_iff_toNat_lt, UInt8.le_iff_toNat_le, toNat_ofNat_of_lt hfirst, UInt8.reduceToNat,
      and_true]
    rw [if_neg (by omega), if_neg (by omega), if_pos (by omega)]
    rfl
  · have hfirst : v / 262144 % 8 + 240 < 256 := by omega
    have hsecond : second (UInt8.ofNat (v / 262144 % 8 + 240))
        (UInt8.ofNat (v / 4096 % 64 + 128)) = true :=
      second_ofNat hfirst (by omega) (by omega) (by omega) (by omega) (by omega)
    have hthird : cont (UInt8.ofNat (v / 64 % 64 + 128)) = true := cont_ofNat (by omega)
    have hfourth : cont (UInt8.ofNat (v % 64 + 128)) = true := cont_ofNat (by omega)
    simp only [List.cons_append, runeLen, List.getD_cons_zero, List.getD_cons_succ, hsecond, hthird,
      hfourth, UInt8.lt_iff_toNat_lt, UInt8.le_iff_toNat_le, toNat_ofNat_of_lt hfirst,
      UInt8.reduceToNat, and_true]
    rw [if_neg (by omega), if_neg (by omega), if_neg (by omega), if_pos (by omega)]
    rfl

/-- A character is one piece of a text. -/
theorem runesFuel_utf8EncodeChar (c : Char) (fuel : ℕ) (rest : Bytes) :
    ∃ r, (∀ b, r ≠ Rune.bad b) ∧
      runesFuel (fuel + 1) (String.utf8EncodeChar c ++ rest) = r :: runesFuel fuel rest := by
  have hlen := runeLen_utf8EncodeChar c rest
  cases hc : String.utf8EncodeChar c with
  | nil =>
      have hsize := String.length_utf8EncodeChar c
      rw [hc] at hsize
      exact absurd hsize (Nat.ne_of_lt c.utf8Size_pos)
  | cons b tail =>
      rw [hc, List.cons_append, List.length_cons] at hlen
      rw [List.cons_append, runesFuel, hlen]
      cases tail with
      | nil => exact ⟨.ascii b, nofun, rfl⟩
      | cons x tail =>
          refine ⟨.multi (b :: ((x :: tail) ++ rest).take (tail.length + 1)), nofun, ?_⟩
          have hdrop : ((x :: tail) ++ rest).drop (tail.length + 1) = rest := List.drop_left' rfl
          simp only [List.length_cons, hdrop]

/-- Text is a sequence of characters. -/
theorem valid_utf8 (s : String) : Valid (utf8 s) := by
  have hfuel : ∀ (l : List Char) (fuel : ℕ), ∀ b,
      Rune.bad b ∉ runesFuel fuel (l.flatMap String.utf8EncodeChar) := by
    intro l
    induction l with
    | nil => intro fuel b; cases fuel <;> simp [runesFuel]
    | cons c l ih =>
        intro fuel b
        cases fuel with
        | zero => simp [runesFuel]
        | succ fuel =>
            obtain ⟨r, hr, heq⟩ := runesFuel_utf8EncodeChar c fuel (l.flatMap String.utf8EncodeChar)
            rw [List.flatMap_cons, heq, List.mem_cons, not_or]
            exact ⟨fun h => hr b h.symm, ih fuel b⟩
  have htext : utf8 s = s.toList.flatMap String.utf8EncodeChar := by
    rw [← utf8_ofList, String.ofList_toList]
  intro b
  rw [htext, runes]
  exact hfuel _ _ b

/-! ## What is written can be read -/

theorem push_push (a b : Bytes) (r : Option (Bytes × Bytes)) :
    push a (push b r) = push (a ++ b) r := by
  cases r <;> simp [push]

theorem unquote_raw {b : UInt8} (hquote : b ≠ 0x22) (hcontrol : ¬ b < 0x20) (hslash : b ≠ 0x5c)
    (t : Bytes) : unquote (b :: t) = push [b] (unquote t) := by
  rw [unquote.eq_def]
  simp only [if_neg hquote, if_neg hcontrol, if_neg hslash]

theorem unquote_unescape {c x : UInt8} (hc : c ≠ 0x75) (hx : unescape c = some x) (t : Bytes) :
    unquote (0x5c :: c :: t) = push [x] (unquote t) := by
  rw [unquote.eq_def]
  dsimp only
  rw [if_neg (by decide), if_neg (by decide), if_pos rfl]
  split
  · rename_i heq
    exact absurd (List.cons.inj heq).1 hc
  · rename_i c' t' _ heq
    obtain ⟨rfl, rfl⟩ := List.cons.inj heq
    rw [hx]
  · rename_i heq
    cases heq

theorem unquote_hexRune {a b c d : UInt8} {bytes : Bytes} (h : hexRune a b c d = some bytes)
    (t : Bytes) : unquote (0x5c :: 0x75 :: a :: b :: c :: d :: t) = push bytes (unquote t) := by
  rw [unquote.eq_def]
  simp [h]

/-- Every escaped ASCII character is of a form the reader knows. -/
theorem escapeAscii_cases : ∀ n : Fin 128,
    let b := UInt8.ofNat n.val
    (escapeAscii b = [b] ∧ b ≠ 0x22 ∧ ¬ b < 0x20 ∧ b ≠ 0x5c) ∨
    (∃ c ∈ [0x22, 0x5c, 0x62, 0x66, 0x6e, 0x72, 0x74],
      escapeAscii b = [0x5c, c] ∧ c ≠ 0x75 ∧ unescape c = some b) ∨
    (escapeAscii b = [0x5c, 0x75, 0x30, 0x30, hexDigit (b / 16), hexDigit (b % 16)] ∧
      hexRune 0x30 0x30 (hexDigit (b / 16)) (hexDigit (b % 16)) = some [b]) := by
  decide +kernel

theorem unquote_escapeAscii {b : UInt8} (hb : b < 0x80) (t : Bytes) :
    unquote (escapeAscii b ++ t) = push [b] (unquote t) := by
  have hcases := escapeAscii_cases ⟨b.toNat, UInt8.lt_iff_toNat_lt.mp hb⟩
  simp only [UInt8.ofNat_toNat] at hcases
  rcases hcases with ⟨h, h₁, h₂, h₃⟩ | ⟨c, -, h, hc, hx⟩ | ⟨h, hx⟩
  · rw [h]
    exact unquote_raw h₁ h₂ h₃ t
  · rw [h]
    exact unquote_unescape hc hx t
  · rw [h]
    exact unquote_hexRune hx t

theorem unquote_multi {bytes : Bytes} (h : ∀ x ∈ bytes, 0x80 ≤ x) (t : Bytes) :
    unquote (bytes ++ t) = push bytes (unquote t) := by
  induction bytes with
  | nil => cases hu : unquote t <;> simp [push, hu]
  | cons b rest ih =>
      have hb : 0x80 ≤ b := h b (by simp)
      have hne : ∀ c : UInt8, c < 0x80 → b ≠ c := by
        rintro c hc rfl
        exact absurd hc (UInt8.not_lt.mpr hb)
      have hcontrol : ¬ b < 0x20 := fun hlt => hne b (UInt8.lt_trans hlt (by decide)) rfl
      rw [List.cons_append, unquote_raw (hne _ (by decide)) hcontrol (hne _ (by decide)),
        ih fun x hx => h x (by simp [hx]), push_push]
      rfl

theorem unquote_escape {r : Rune} (hr : r.WellFormed) (t : Bytes) :
    unquote (r.escape ++ t) = push r.replaced (unquote t) := by
  cases r with
  | ascii b => exact unquote_escapeAscii hr t
  | bad b =>
      have h : hexRune 0x66 0x66 0x66 0x64 = some replacement := by decide
      exact unquote_hexRune h t
  | multi bytes =>
      simp only [Rune.escape]
      split_ifs with h₈ h₉
      · rw [h₈]
        exact unquote_hexRune (by decide) t
      · rw [h₉]
        exact unquote_hexRune (by decide) t
      · exact unquote_multi hr t

theorem unquote_flatMap {rs : List Rune} (hrs : ∀ r ∈ rs, r.WellFormed) (t : Bytes) :
    unquote (rs.flatMap Rune.escape ++ 0x22 :: t) = some (rs.flatMap Rune.replaced, t) := by
  induction rs with
  | nil => simp [unquote.eq_def (_ :: _)]
  | cons r rest ih =>
      rw [List.flatMap_cons, List.append_assoc, unquote_escape (hrs r (by simp)),
        ih fun x hx => hrs x (by simp [hx])]
      rfl

/-- A written string is read back with its stray bytes replaced. -/
theorem unquote_quote (s t : Bytes) :
    unquote ((runes s).flatMap Rune.escape ++ 0x22 :: t) = some (sanitize s, t) :=
  unquote_flatMap (fun _ hr => wellFormed_of_mem hr) t

/-- What follows a number in an object. -/
def Ends (t : Bytes) : Prop := ∃ b rest, t = b :: rest ∧ isDigit b = false

theorem isDigit_digits : ∀ n : Fin 128, (Char.ofNat n.val).isDigit →
    isDigit (UInt8.ofNat n.val) ∧ Char.ofNat (UInt8.ofNat n.val).toNat = Char.ofNat n.val := by
  decide

theorem digitByte {c : Char} (h : c.isDigit) :
    isDigit (UInt8.ofNat c.toNat) ∧ Char.ofNat (UInt8.ofNat c.toNat).toNat = c := by
  have hle : c.toNat < 128 := by
    exact Nat.lt_of_le_of_lt (Char.isDigit_iff_toNat.mp h).2 (by decide)
  have hc := isDigit_digits ⟨c.toNat, hle⟩
  simpa [h] using hc

theorem all_isDigit_digits (n : ℕ) : ∀ b ∈ digits n, isDigit b := by
  intro b hb
  obtain ⟨c, hc, rfl⟩ := List.mem_map.mp hb
  exact (digitByte (Nat.isDigit_of_mem_toDigits (by decide) (by decide) hc)).1

theorem map_digits (n : ℕ) : ((digits n).map fun b => Char.ofNat b.toNat) = Nat.toDigits 10 n := by
  rw [digits, List.map_map]
  conv_rhs => rw [← List.map_id (Nat.toDigits 10 n)]
  refine List.map_congr_left fun c hc => ?_
  exact (digitByte (Nat.isDigit_of_mem_toDigits (by decide) (by decide) hc)).2

theorem digits_ne_nil (n : ℕ) : digits n ≠ [] := by
  simp [digits, Nat.toDigits_ne_nil]

theorem readNat_digits (n : ℕ) {t : Bytes} (ht : Ends t) :
    readNat (digits n ++ t) = some (n, t) := by
  obtain ⟨b, rest, rfl, hb⟩ := ht
  have htake : (digits n ++ b :: rest).takeWhile isDigit = digits n := by
    rw [List.takeWhile_append_of_pos (all_isDigit_digits n)]
    simp [hb]
  have hdrop : (digits n ++ b :: rest).dropWhile isDigit = b :: rest := by
    rw [List.dropWhile_append_of_pos (all_isDigit_digits n)]
    simp [hb]
  rw [readNat, htake, hdrop, if_neg (digits_ne_nil n), map_digits, Nat.ofDigitChars_ten_toDigits]

theorem readValue_write (v : Value) {t : Bytes} (ht : Ends t) :
    readValue (v.write ++ t) = some (v.sanitize, t) := by
  cases v with
  | string s =>
      have h := unquote_quote s t
      simp [Value.write, quote, readValue, h, Value.sanitize]
  | int i =>
      have hread := readNat_digits i.natAbs ht
      simp only [Value.write, decimal]
      split_ifs with hneg
      · have habs : -(i.natAbs : ℤ) = i := by omega
        rw [List.cons_append, readValue, if_neg (by decide), if_pos rfl, hread]
        simp only [Option.map_some, habs, Value.sanitize]
      · cases hd : digits i.natAbs with
        | nil => exact absurd hd (digits_ne_nil _)
        | cons d ds =>
            have hdig : isDigit d := all_isDigit_digits i.natAbs d (by simp [hd])
            have hq : d ≠ 0x22 := by
              rintro rfl
              exact absurd hdig (by decide)
            have hm : d ≠ 0x2d := by
              rintro rfl
              exact absurd hdig (by decide)
            have habs : (i.natAbs : ℤ) = i := by omega
            rw [hd, List.cons_append] at hread
            rw [List.cons_append, readValue, if_neg hq, if_neg hm, hread]
            simp [habs, Value.sanitize]

theorem decimal_injective : Function.Injective decimal := by
  intro i j h
  have hi := readValue_write (.int i) (t := [0x7d]) ⟨0x7d, [], rfl, rfl⟩
  have hj := readValue_write (.int j) (t := [0x7d]) ⟨0x7d, [], rfl, rfl⟩
  rw [Value.write, h] at hi
  rw [Value.write, hi] at hj
  exact Value.int.inj (Prod.mk.inj (Option.some.inj hj)).1

theorem readMember_write (m : Member) {t : Bytes} (ht : Ends t) :
    readMember (writeMember m ++ t) = some ((sanitize m.1, m.2.sanitize), t) := by
  have hkey := unquote_quote m.1 (0x3a :: (m.2.write ++ t))
  have htext : writeMember m ++ t =
      0x22 :: ((runes m.1).flatMap Rune.escape ++ 0x22 :: 0x3a :: (m.2.write ++ t)) := by
    simp [writeMember, quote]
  rw [htext, readMember, hkey]
  simp only [readValue_write m.2 ht, Option.map_some]

theorem ends_writeRest (ms : List Member) (t : Bytes) : Ends (writeRest ms ++ t) := by
  cases ms with
  | nil => exact ⟨0x7d, t, rfl, rfl⟩
  | cons m ms => exact ⟨0x2c, _, rfl, rfl⟩

/-- The members as they are read back. -/
def sanitizeMembers (ms : List Member) : List Member := ms.map fun m => (sanitize m.1, m.2.sanitize)

theorem readRest_write (ms : List Member) (t : Bytes) {fuel : ℕ} (hfuel : ms.length < fuel) :
    readRest fuel (writeRest ms ++ t) = some (sanitizeMembers ms, t) := by
  induction ms generalizing fuel with
  | nil =>
      obtain ⟨fuel, rfl⟩ : ∃ k, fuel = k + 1 := ⟨fuel - 1, by simp at hfuel; omega⟩
      rfl
  | cons m ms ih =>
      obtain ⟨fuel, rfl⟩ : ∃ k, fuel = k + 1 := ⟨fuel - 1, by simp at hfuel; omega⟩
      have htext : writeRest (m :: ms) ++ t = 0x2c :: (writeMember m ++ (writeRest ms ++ t)) := by
        simp [writeRest]
      rw [htext, readRest]
      simp only [readMember_write m (ends_writeRest ms t),
        ih (Nat.lt_of_succ_lt_succ hfuel), bind, Option.bind, pure]
      rfl

theorem length_le_writeRest (ms : List Member) : ms.length < (writeRest ms).length := by
  induction ms with
  | nil => decide
  | cons m ms ih =>
      simp only [writeRest, List.flatMap_cons, List.length_append, List.length_cons] at ih ⊢
      omega

theorem readObject_write (ms : List Member) (t : Bytes) :
    readObject (writeObject ms ++ t) = some (sanitizeMembers ms, t) := by
  cases ms with
  | nil => rfl
  | cons m ms =>
      have htext : writeObject (m :: ms) ++ t = 0x7b :: (writeMember m ++ (writeRest ms ++ t)) := by
        simp [writeObject]
      have hhead : ¬ (writeMember m ++ (writeRest ms ++ t)).head? = some 0x7d := by
        simp [writeMember, quote]
      have hfuel : ms.length < (writeRest ms ++ t).length := by
        rw [List.length_append]
        exact Nat.lt_add_right _ (length_le_writeRest ms)
      rw [htext, readObject, if_neg hhead]
      simp only [readMember_write m (ends_writeRest ms t), readRest_write ms t hfuel, bind,
        Option.bind, pure]
      rfl

/-- An object is read back, with the stray bytes of its strings replaced. -/
theorem parse_writeObject (ms : List Member) :
    parse (writeObject ms) = some (sanitizeMembers ms) := by
  have h := readObject_write ms []
  rw [List.append_nil] at h
  rw [parse, h]

theorem field_of_mem {ms : List Member} (hnd : (ms.map Prod.fst).Nodup) {key : String} {v : Value}
    (h : (utf8 key, v) ∈ ms) : field ms key = some v := by
  have hrev : ((ms.reverse).map Prod.fst).Nodup := by
    rw [List.map_reverse, List.nodup_reverse]
    exact hnd
  have hmem : (utf8 key, v) ∈ ms.reverse := List.mem_reverse.mpr h
  unfold field
  generalize ms.reverse = l at hrev hmem
  induction l with
  | nil => cases hmem
  | cons m rest ih =>
      obtain ⟨hnot, hrest⟩ := List.nodup_cons.mp hrev
      rcases List.mem_cons.mp hmem with rfl | hmem
      · simp
      · have hne : (utf8 key == m.1) = false := by
          rw [beq_eq_false_iff_ne]
          intro heq
          exact hnot (heq ▸ List.mem_map_of_mem hmem)
        rw [List.lookup_cons, hne]
        exact ih hrest hmem

theorem stringField_of_mem {ms : List Member} (hnd : (ms.map Prod.fst).Nodup) {key : String}
    {s : Bytes} (h : (utf8 key, .string s) ∈ ms) : stringField ms key = some s := by
  rw [stringField, field_of_mem hnd h]

theorem intField_of_mem {ms : List Member} (hnd : (ms.map Prod.fst).Nodup) {key : String} {i : ℤ}
    (h : (utf8 key, .int i) ∈ ms) : intField ms key = some i := by
  rw [intField, field_of_mem hnd h]

/-! ## A cut text is no object -/

theorem map_fst_eq_some {α β : Type} {f : α → β} {r : Option (α × Bytes)} {v : β} {t : Bytes}
    (h : (r.map fun p => (f p.1, p.2)) = some (v, t)) : ∃ a, r = some (a, t) ∧ v = f a := by
  obtain ⟨p, rfl, heq⟩ := Option.map_eq_some_iff.mp h
  obtain ⟨rfl, rfl⟩ := Prod.mk.inj heq
  exact ⟨p.1, rfl, rfl⟩

/-- What is read before a byte that is not read stays read, whatever follows. -/
theorem push_append {bytes a t u : Bytes} {r r' : Option (Bytes × Bytes)}
    (h : push bytes r = some (a, t))
    (hr : ∀ {a' : Bytes}, r = some (a', t) → r' = some (a', t ++ u)) :
    push bytes r' = some (a, t ++ u) := by
  obtain ⟨a', ha', rfl⟩ := map_fst_eq_some h
  rw [hr ha']
  rfl

theorem unquote_append {s a t : Bytes} (h : unquote s = some (a, t)) (u : Bytes) :
    unquote (s ++ u) = some (a, t ++ u) := by
  fun_induction unquote s generalizing a t with
  | case1 => cases h
  | case2 rest =>
      obtain ⟨rfl, rfl⟩ := Prod.mk.inj (Option.some.inj h)
      simp [unquote.eq_def (_ :: _)]
  | case3 => cases h
  | case4 w x y z rest bytes hhex _ _ ih =>
      exact (unquote_hexRune hhex _).trans (push_append h ih)
  | case5 => cases h
  | case6 c rest _ x hx _ _ ih =>
      have hc : c ≠ 0x75 := by
        rintro rfl
        rw [show unescape 0x75 = none by decide] at hx
        cases hx
      exact (unquote_unescape hc hx _).trans (push_append h ih)
  | case7 => cases h
  | case8 => cases h
  | case9 b rest hquote hcontrol hslash ih =>
      exact (unquote_raw hquote hcontrol hslash _).trans (push_append h ih)

theorem readNat_append {s t : Bytes} {n : ℕ} (h : readNat s = some (n, t)) (ht : t ≠ [])
    (u : Bytes) : readNat (s ++ u) = some (n, t ++ u) := by
  unfold readNat at h
  split at h
  · cases h
  · rename_i hne
    obtain ⟨rfl, rfl⟩ := Prod.mk.inj (Option.some.inj h)
    have hlen : (s.takeWhile isDigit).length ≠ s.length := by
      intro hall
      apply ht
      have happ := congrArg List.length (List.takeWhile_append_dropWhile (p := isDigit) (l := s))
      rw [List.length_append] at happ
      exact List.length_eq_zero_iff.mp (by omega)
    rw [readNat, List.takeWhile_append, if_neg hlen, if_neg hne, List.dropWhile_append,
      if_neg (by simpa [List.isEmpty_iff] using ht)]

theorem readValue_append {s t : Bytes} {v : Value} (h : readValue s = some (v, t)) (ht : t ≠ [])
    (u : Bytes) : readValue (s ++ u) = some (v, t ++ u) := by
  cases s with
  | nil => cases h
  | cons b r =>
      rw [readValue] at h
      rw [List.cons_append, readValue]
      split_ifs at h ⊢
      · obtain ⟨a, ha, rfl⟩ := map_fst_eq_some h
        rw [unquote_append ha u]
        rfl
      · obtain ⟨n, hn, rfl⟩ := map_fst_eq_some (f := fun n : ℕ => Value.int (-n)) h
        rw [readNat_append hn ht u]
        rfl
      · obtain ⟨n, hn, rfl⟩ := map_fst_eq_some (f := fun n : ℕ => Value.int n) h
        rw [← List.cons_append, readNat_append hn ht u]
        rfl

theorem readMember_append {s t : Bytes} {m : Member} (h : readMember s = some (m, t)) (ht : t ≠ [])
    (u : Bytes) : readMember (s ++ u) = some (m, t ++ u) := by
  unfold readMember at h
  split at h
  · split at h
    · rename_i key r hkey
      obtain ⟨v, hv, rfl⟩ := map_fst_eq_some h
      rw [List.cons_append, readMember, unquote_append hkey u, List.cons_append]
      simp only [readValue_append hv ht u, Option.map_some]
    · cases h
  · cases h

theorem readRest_append {fuel : ℕ} {s t : Bytes} {ms : List Member}
    (h : readRest fuel s = some (ms, t)) (u : Bytes) {fuel' : ℕ} (hfuel : fuel ≤ fuel') :
    s ≠ [] ∧ readRest fuel' (s ++ u) = some (ms, t ++ u) := by
  induction fuel generalizing s t ms fuel' with
  | zero => cases h
  | succ fuel ih =>
      obtain ⟨fuel', rfl⟩ : ∃ k, fuel' = k + 1 := ⟨fuel' - 1, by omega⟩
      unfold readRest at h
      split at h
      · obtain ⟨rfl, rfl⟩ := Prod.mk.inj (Option.some.inj h)
        exact ⟨by simp, rfl⟩
      · simp only [Option.bind_eq_bind, Option.bind_eq_some_iff] at h
        obtain ⟨⟨m, r⟩, hm, ⟨ms', t'⟩, hms, heq⟩ := h
        obtain ⟨rfl, rfl⟩ := Prod.mk.inj (Option.some.inj heq)
        obtain ⟨hr, hrest⟩ := ih hms (Nat.le_of_succ_le_succ hfuel)
        refine ⟨by simp, ?_⟩
        rw [List.cons_append, readRest, readMember_append hm hr u]
        simp only [Option.bind_eq_bind, Option.bind_some, hrest]
        rfl
      · cases h

theorem readObject_append {s t : Bytes} {ms : List Member} (h : readObject s = some (ms, t))
    (u : Bytes) : readObject (s ++ u) = some (ms, t ++ u) := by
  unfold readObject at h
  split at h
  · rename_i r
    split at h
    · rename_i hhead
      obtain ⟨rfl, rfl⟩ := Prod.mk.inj (Option.some.inj h)
      obtain ⟨r, rfl⟩ : ∃ k, r = 0x7d :: k := List.head?_eq_some_iff.mp hhead
      rfl
    · rename_i hhead
      simp only [Option.bind_eq_bind, Option.bind_eq_some_iff] at h
      obtain ⟨⟨m, r'⟩, hm, ⟨ms', t'⟩, hms, heq⟩ := h
      obtain ⟨rfl, rfl⟩ := Prod.mk.inj (Option.some.inj heq)
      have hle : r'.length ≤ (r' ++ u).length := by simp
      obtain ⟨hr', hrest⟩ := readRest_append hms u hle
      have hne : r ≠ [] := by
        rintro rfl
        cases hm
      have hhead' : ¬ (r ++ u).head? = some 0x7d := by
        rwa [List.head?_append_of_ne_nil _ hne]
      rw [List.cons_append, readObject, if_neg hhead', readMember_append hm hr' u]
      simp only [Option.bind_eq_bind, Option.bind_some, hrest]
      rfl
  · cases h

/-- A proper start of a written object is no object. -/
theorem parse_isPrefix {ms : List Member} {p : Bytes} (h : p <+: writeObject ms)
    (hne : p ≠ writeObject ms) : parse p = none := by
  obtain ⟨u, hu⟩ := h
  cases hp : readObject p with
  | none => rw [parse, hp]
  | some r =>
      obtain ⟨ms', t⟩ := r
      have hfull := readObject_append hp u
      have hwhole := readObject_write ms []
      rw [List.append_nil] at hwhole
      rw [hu, hwhole] at hfull
      obtain ⟨-, ht⟩ := Prod.mk.inj (Option.some.inj hfull)
      have hnil : u = [] := (List.append_eq_nil_iff.mp ht.symm).2
      rw [hnil, List.append_nil] at hu
      exact absurd hu hne

/-! ## No control characters -/

theorem le_of_all {s : Bytes} (h : s.all (0x20 ≤ ·) = true) : ∀ x ∈ s, 0x20 ≤ x :=
  fun x hx => of_decide_eq_true (List.all_eq_true.mp h x hx)

theorem le_escapeAscii : ∀ n : Fin 128, ∀ x ∈ escapeAscii (UInt8.ofNat n.val), 0x20 ≤ x := by
  have hall : ∀ n ∈ List.range 128, (escapeAscii (UInt8.ofNat n)).all (0x20 ≤ ·) = true := by
    decide +kernel
  intro n
  exact le_of_all (hall n (List.mem_range.mpr n.isLt))

theorem le_of_mem_escape {r : Rune} (hr : r.WellFormed) : ∀ x ∈ r.escape, 0x20 ≤ x := by
  cases r with
  | ascii b =>
      have h := le_escapeAscii ⟨b.toNat, UInt8.lt_iff_toNat_lt.mp hr⟩
      simp only [UInt8.ofNat_toNat] at h
      exact h
  | bad b => exact le_of_all (by rfl)
  | multi bytes =>
      simp only [Rune.escape]
      split_ifs
      · exact le_of_all (by rfl)
      · exact le_of_all (by rfl)
      · exact fun x hx => UInt8.le_trans (by decide) (hr x hx)

theorem le_of_mem_quote {s : Bytes} : ∀ x ∈ quote s, 0x20 ≤ x := by
  intro x hx
  simp only [quote, List.mem_cons, List.mem_append, List.mem_flatMap, List.not_mem_nil,
    or_false] at hx
  rcases hx with rfl | ⟨r, hr, hx⟩ | rfl
  · decide
  · exact le_of_mem_escape (wellFormed_of_mem hr) x hx
  · decide

theorem le_of_mem_digits {n : ℕ} : ∀ x ∈ digits n, 0x20 ≤ x := by
  intro x hx
  have h := all_isDigit_digits n x hx
  simp only [isDigit, Bool.and_eq_true, decide_eq_true_eq] at h
  exact UInt8.le_trans (by decide) h.1

theorem le_of_mem_write {v : Value} : ∀ x ∈ v.write, 0x20 ≤ x := by
  cases v with
  | string s => exact le_of_mem_quote
  | int i =>
      simp only [Value.write, decimal]
      split_ifs
      · exact List.forall_mem_cons.mpr ⟨by decide, le_of_mem_digits⟩
      · exact le_of_mem_digits

theorem le_of_mem_writeMember {m : Member} : ∀ x ∈ writeMember m, 0x20 ≤ x := by
  intro x hx
  rcases List.mem_append.mp hx with hx | hx
  · exact le_of_mem_quote x hx
  · rcases List.mem_cons.mp hx with rfl | hx
    · decide
    · exact le_of_mem_write x hx

/-- A written object is one line of text. -/
theorem le_of_mem_writeObject {ms : List Member} : ∀ x ∈ writeObject ms, 0x20 ≤ x := by
  cases ms with
  | nil => exact le_of_all (by decide)
  | cons m ms =>
      intro x hx
      simp only [writeObject, writeRest, List.mem_cons, List.mem_append, List.mem_flatMap,
        List.not_mem_nil, or_false] at hx
      rcases hx with rfl | hx | ⟨m', -, rfl | hx⟩ | rfl
      · decide
      · exact le_of_mem_writeMember x hx
      · decide
      · exact le_of_mem_writeMember x hx
      · decide

theorem getLast?_writeObject (ms : List Member) : (writeObject ms).getLast? = some 0x7d := by
  cases ms with
  | nil => rfl
  | cons m ms => simp [writeObject, writeRest, List.getLast?_cons, List.getLast?_append]

end PmxAgents.Lib.Json
