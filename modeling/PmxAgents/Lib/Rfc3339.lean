import Mathlib.Algebra.Group.Nat.Defs
import Mathlib.Data.List.Basic
import Mathlib.Data.List.TakeWhile
import PmxAgents.Lib.Calendar

/-!
# Timestamps as RFC 3339 text

Seconds since the epoch are written as a UTC date and time. Renderers differ in
how they write a year outside the four-digit range and in how many digits of a
fraction they keep; both are parameters of the text. A renderer whose year text
can be read back up to the following dash loses nothing.
-/

namespace PmxAgents.Lib.Rfc3339

open Calendar

/-! ## Padded decimal numbers -/

/-- A decimal number padded with zeros on the left. -/
def padNat (w n : Nat) : List Char :=
  List.replicate (w - (Nat.toDigits 10 n).length) '0' ++ Nat.toDigits 10 n

theorem ofDigitChars_padNat (w n : Nat) : Nat.ofDigitChars 10 (padNat w n) 0 = n := by
  simp [padNat, Nat.ofDigitChars_append, Nat.ofDigitChars_replicate_zero,
    Nat.ofDigitChars_ten_toDigits]

theorem padNat_injective (w : Nat) : Function.Injective (padNat w) := by
  intro n m h
  rw [← ofDigitChars_padNat w n, ← ofDigitChars_padNat w m, h]

theorem length_padNat {w n : Nat} (hw : 0 < w) (hn : n < 10 ^ w) : (padNat w n).length = w := by
  have hle : (Nat.toDigits 10 n).length ≤ w := (Nat.length_toDigits_le_iff (by decide) hw).mpr hn
  simp only [padNat, List.length_append, List.length_replicate]
  omega

theorem isDigit_of_mem_padNat {w n : Nat} {c : Char} (h : c ∈ padNat w n) : c.isDigit := by
  rcases List.mem_append.mp h with h | h
  · rw [List.eq_of_mem_replicate h]
    decide
  · exact Nat.isDigit_of_mem_toDigits (by decide) (by decide) h

theorem padNat_ne_nil (w n : Nat) : padNat w n ≠ [] := by
  simp [padNat, Nat.toDigits_ne_nil]

/-- Padded numbers of the same width cancel from the front of a text. -/
theorem padNat_append_inj {w n m : Nat} (hw : 0 < w) (hn : n < 10 ^ w) (hm : m < 10 ^ w)
    {r r' : List Char} (h : padNat w n ++ r = padNat w m ++ r') : n = m ∧ r = r' := by
  obtain ⟨hd, hr⟩ := List.append_inj h (by rw [length_padNat hw hn, length_padNat hw hm])
  exact ⟨padNat_injective w hd, hr⟩

/-! ## Date and time -/

/-- The date, the time and an optional fraction. `extra` is one in a leap second. -/
def text (yearText : Int → List Char) (secs : Int) (extra : Nat) (frac : List Char) :
    List Char :=
  let date := civilOfDays (secs / 86400)
  let sod := (secs % 86400).toNat
  yearText date.year ++ '-' :: (padNat 2 date.month.toNat ++ ('-' :: (padNat 2 date.day.toNat ++
    ('T' :: (padNat 2 (sod / 3600) ++ (':' :: (padNat 2 (sod % 3600 / 60) ++
      (':' :: (padNat 2 (sod % 60 + extra) ++ (frac ++ ['Z']))))))))))

/-- A year text that can be read back up to the dash that follows it. -/
def YearReadable (yearText : Int → List Char) : Prop :=
  ∀ {y y' : Int} {r r' : List Char},
    yearText y ++ '-' :: r = yearText y' ++ '-' :: r' → y = y' ∧ r = r'

/-- With a readable year the text determines the second, the leap second and the
fraction. -/
theorem text_inj {yearText : Int → List Char} (hyear : YearReadable yearText)
    {secs secs' : Int} {extra extra' : Nat} {frac frac' : List Char}
    (hx : extra ≤ 1) (hx' : extra' ≤ 1)
    (hleap : extra = 1 → secs % 60 = 59) (hleap' : extra' = 1 → secs' % 60 = 59)
    (h : text yearText secs extra frac = text yearText secs' extra' frac') :
    secs = secs' ∧ extra = extra' ∧ frac = frac' := by
  unfold text at h
  obtain ⟨hm1, hm12, hd1, hd31⟩ := civilOfDays_range (secs / 86400)
  obtain ⟨hm1', hm12', hd1', hd31'⟩ := civilOfDays_range (secs' / 86400)
  obtain ⟨hy, h⟩ := hyear h
  obtain ⟨hm, h⟩ := padNat_append_inj (by decide) (by omega) (by omega) h
  obtain ⟨hd, h⟩ := padNat_append_inj (by decide) (by omega) (by omega) (List.cons.inj h).2
  obtain ⟨hh, h⟩ := padNat_append_inj (by decide) (by omega) (by omega) (List.cons.inj h).2
  obtain ⟨hmin, h⟩ := padNat_append_inj (by decide) (by omega) (by omega) (List.cons.inj h).2
  obtain ⟨hsec, h⟩ := padNat_append_inj (by decide) (by omega) (by omega) (List.cons.inj h).2
  have hfrac : frac = frac' := List.append_inj_left' h rfl
  have hdate : civilOfDays (secs / 86400) = civilOfDays (secs' / 86400) := by
    cases hc : civilOfDays (secs / 86400)
    cases hc' : civilOfDays (secs' / 86400)
    simp only [hc, hc'] at *
    simp only [Date.mk.injEq]
    omega
  have hdays := civilOfDays_injective hdate
  have hextra : extra = extra' := by omega
  exact ⟨by omega, hextra, hfrac⟩

/-- Texts of one second whose years are written alike differ in their fractions only. -/
theorem text_eq_iff {yearText yearText' : Int → List Char} {secs : Int}
    (hyear : yearText (civilOfDays (secs / 86400)).year =
      yearText' (civilOfDays (secs / 86400)).year) (extra : Nat) (frac frac' : List Char) :
    text yearText secs extra frac = text yearText' secs extra frac' ↔ frac = frac' := by
  simp only [text, hyear, List.append_cancel_left_eq, List.cons_inj_right,
    List.append_cancel_right_eq]

/-! ## Year texts -/

/-- At least four digits, with a sign for negative years only. -/
def yearPadded (y : Int) : List Char :=
  if y < 0 then '-' :: padNat 4 y.natAbs else padNat 4 y.natAbs

/-- Four digits from 0 to 9999, and an explicit sign outside that range. -/
def yearSigned (y : Int) : List Char :=
  if y < 0 then '-' :: padNat 4 y.natAbs
  else if 9999 < y then '+' :: padNat 4 y.natAbs
  else padNat 4 y.natAbs

/-- Digits followed by a dash can be read back. -/
theorem padNat_dash_inj {w n m : Nat} {r r' : List Char}
    (h : padNat w n ++ '-' :: r = padNat w m ++ '-' :: r') : n = m ∧ r = r' := by
  have htake : ∀ k r, (padNat w k ++ '-' :: r).takeWhile Char.isDigit = padNat w k := by
    intro k r
    rw [List.takeWhile_append_of_pos fun c hc => isDigit_of_mem_padNat hc]
    simp
  have hdigits : padNat w n = padNat w m := by rw [← htake n r, h, htake]
  obtain rfl := padNat_injective w hdigits
  exact ⟨rfl, (List.cons.inj (List.append_cancel_left h)).2⟩

/-- A digit text never starts with a sign. -/
theorem cons_ne_padNat {c : Char} (hc : c.isDigit = false) (w n : Nat) (r r' : List Char) :
    c :: r ≠ padNat w n ++ r' := by
  intro h
  cases hp : padNat w n with
  | nil => exact padNat_ne_nil w n hp
  | cons d ds =>
      rw [hp, List.cons_append] at h
      have hd : d.isDigit := isDigit_of_mem_padNat (w := w) (n := n) (by simp [hp])
      rw [← (List.cons.inj h).1, hc] at hd
      cases hd

theorem yearPadded_readable : YearReadable yearPadded := by
  intro y y' r r' h
  unfold yearPadded at h
  split_ifs at h with h₁ h₂ h₃
  · obtain ⟨hn, hr⟩ := padNat_dash_inj (List.cons.inj h).2
    exact ⟨by omega, hr⟩
  · exact absurd h (cons_ne_padNat (by decide) _ _ _ _)
  · exact absurd h.symm (cons_ne_padNat (by decide) _ _ _ _)
  · obtain ⟨hn, hr⟩ := padNat_dash_inj h
    exact ⟨by omega, hr⟩

/-- The two year texts agree up to the year 9999 and differ beyond. -/
theorem yearPadded_eq_yearSigned (y : Int) : yearPadded y = yearSigned y ↔ y ≤ 9999 := by
  unfold yearPadded yearSigned
  split_ifs with hneg hbig
  · exact ⟨fun _ => by omega, fun _ => rfl⟩
  · refine ⟨fun h => ?_, fun h => absurd h (by omega)⟩
    have h' : '+' :: padNat 4 y.natAbs = padNat 4 y.natAbs ++ [] := by
      rw [List.append_nil]
      exact h.symm
    exact absurd h' (cons_ne_padNat (by decide) _ _ _ _)
  · exact ⟨fun _ => by omega, fun _ => rfl⟩

/-! ## Fractions of a second -/

/-- No digits for a whole second, else three, six or nine digits, whichever is
the shortest that is exact. -/
def fracAutoSi (nanos : Nat) : List Char :=
  if nanos = 0 then []
  else if nanos % 1000000 = 0 then '.' :: padNat 3 (nanos / 1000000)
  else if nanos % 1000 = 0 then '.' :: padNat 6 (nanos / 1000)
  else '.' :: padNat 9 nanos

/-- Nine digits without trailing zeros, and nothing for a whole second. -/
def fracTrimmed (nanos : Nat) : List Char :=
  if nanos = 0 then []
  else '.' :: ((padNat 9 nanos).reverse.dropWhile (· = '0')).reverse

/-- The digits of a fraction without their trailing zeros. -/
def fracDigits (n : Nat) : List Char := ((padNat 9 n).reverse.dropWhile (· = '0')).reverse

theorem fracDigits_append (n : Nat) :
    ∃ k, padNat 9 n = fracDigits n ++ List.replicate k '0' := by
  refine ⟨((padNat 9 n).reverse.takeWhile (· = '0')).length, ?_⟩
  have hrep : (padNat 9 n).reverse.takeWhile (· = '0') =
      List.replicate ((padNat 9 n).reverse.takeWhile (· = '0')).length '0' := by
    apply List.eq_replicate_of_mem
    intro c hc
    simpa using List.mem_takeWhile_imp hc
  have happ := List.takeWhile_append_dropWhile (p := (· = '0')) (l := (padNat 9 n).reverse)
  have hrev := congrArg List.reverse happ
  rw [List.reverse_append, List.reverse_reverse, hrep, List.reverse_replicate] at hrev
  exact hrev.symm

/-- The digits are worth the nanoseconds, read as a fraction. -/
theorem ofDigitChars_fracDigits {n : Nat} (hn : n < 10 ^ 9) :
    (fracDigits n).length ≤ 9 ∧
      Nat.ofDigitChars 10 (fracDigits n) 0 * 10 ^ (9 - (fracDigits n).length) = n := by
  obtain ⟨k, hk⟩ := fracDigits_append n
  have hlen := congrArg List.length hk
  rw [length_padNat (by decide) hn, List.length_append, List.length_replicate] at hlen
  have hval := congrArg (fun l => Nat.ofDigitChars 10 l 0) hk
  simp only [ofDigitChars_padNat, Nat.ofDigitChars_append, Nat.ofDigitChars_replicate_zero] at hval
  have hpow : 9 - (fracDigits n).length = k := by omega
  exact ⟨by omega, by rw [hpow, Nat.mul_comm, ← hval]⟩

theorem fracDigits_ne_nil {n : Nat} (hn : n < 10 ^ 9) (hpos : n ≠ 0) : fracDigits n ≠ [] := by
  intro hnil
  have hval := (ofDigitChars_fracDigits hn).2
  rw [hnil] at hval
  simp at hval
  omega

theorem isDigit_fracDigits {n : Nat} : ∀ c ∈ fracDigits n, c.isDigit := by
  intro c hc
  obtain ⟨k, hk⟩ := fracDigits_append n
  exact isDigit_of_mem_padNat (w := 9) (n := n) (hk ▸ List.mem_append_left _ hc)

/-- The trimmed fraction determines the nanoseconds. -/
theorem fracTrimmed_injOn {n m : Nat} (hn : n < 10 ^ 9) (hm : m < 10 ^ 9)
    (h : fracTrimmed n = fracTrimmed m) : n = m := by
  unfold fracTrimmed at h
  split_ifs at h with hzero hzero' hzero'
  · rw [hzero, hzero']
  · have hdigits : fracDigits n = fracDigits m := (List.cons.inj h).2
    rw [← (ofDigitChars_fracDigits hn).2, ← (ofDigitChars_fracDigits hm).2, hdigits]

/-! ## Where the two fractions agree -/

theorem padNat_ten_mul {w m : Nat} (hm : 0 < m) :
    padNat (w + 1) (m * 10) = padNat w m ++ ['0'] := by
  have hdigits := Nat.toDigits_append_toDigits (b := 10) (by decide) hm (d := 0) (by decide)
  have hzero : Nat.toDigits 10 0 = ['0'] := by decide
  rw [hzero, Nat.add_zero, Nat.mul_comm] at hdigits
  rw [padNat, ← hdigits, padNat, List.length_append, List.length_singleton, Nat.add_sub_add_right,
    List.append_assoc]

theorem padNat_pow_mul {w m : Nat} (hm : 0 < m) (j : Nat) :
    padNat (w + j) (m * 10 ^ j) = padNat w m ++ List.replicate j '0' := by
  induction j with
  | zero => simp
  | succ j ih =>
      have hpos : 0 < m * 10 ^ j := Nat.mul_pos hm (Nat.pow_pos (by decide))
      rw [Nat.pow_succ, ← Nat.mul_assoc, ← Nat.add_assoc, padNat_ten_mul hpos, ih,
        List.append_assoc, List.replicate_succ']

theorem getLast?_padNat (w m : Nat) : (padNat w m).getLast? = some (Nat.digitChar (m % 10)) := by
  have hdigits : (Nat.toDigits 10 m).getLast? = some (Nat.digitChar (m % 10)) := by
    by_cases hm : m < 10
    · rw [Nat.toDigits_of_lt_base hm, Nat.mod_eq_of_lt hm, List.getLast?_singleton]
    · have happ := Nat.toDigits_append_toDigits (b := 10) (n := m / 10) (d := m % 10) (by decide)
        (by omega) (by omega)
      rw [Nat.div_add_mod, Nat.toDigits_of_lt_base (by omega : m % 10 < 10)] at happ
      rw [← happ, List.getLast?_concat]
  rw [padNat, List.getLast?_append, hdigits, Option.some_or]

theorem digitChar_eq_zero : ∀ d < 10, Nat.digitChar d = '0' ↔ d = 0 := by decide

/-- Digits behind which only zeros follow are the trimmed digits unless they end in a zero. -/
theorem fracDigits_pow_mul {w j m : Nat} (hw : w + j = 9) (hm : 0 < m) :
    fracDigits (m * 10 ^ j) = padNat w m ↔ m % 10 ≠ 0 := by
  have hlast := getLast?_padNat w m
  rw [fracDigits, ← hw, padNat_pow_mul hm, List.reverse_append, List.reverse_replicate,
    List.dropWhile_append_of_pos (by simp)]
  rw [List.getLast?_eq_head?_reverse] at hlast
  obtain ⟨rest, hrev⟩ := List.head?_eq_some_iff.mp hlast
  have hpad : padNat w m = (Nat.digitChar (m % 10) :: rest).reverse := by
    rw [← hrev, List.reverse_reverse]
  rw [hrev, List.dropWhile_cons, hpad, List.reverse_inj]
  have hzero := digitChar_eq_zero (m % 10) (by omega)
  split_ifs with hdigit
  · refine ⟨fun heq => ?_, fun hne => absurd (hzero.mp (by simpa using hdigit)) hne⟩
    have hle := (List.dropWhile_suffix (l := rest) (· = '0')).length_le
    have hlen := congrArg List.length heq
    rw [List.length_cons] at hlen
    omega
  · exact ⟨fun _ hm0 => hdigit (by simpa using hzero.mpr hm0), fun _ => rfl⟩

/-- The number of trailing zeros of the nine digits is a multiple of three. -/
def WholeGroups (nanos : Nat) : Prop :=
  nanos = 0 ∨ (nanos % 10 ^ 6 = 0 ∧ nanos % 10 ^ 7 ≠ 0) ∨
    (nanos % 10 ^ 3 = 0 ∧ nanos % 10 ^ 4 ≠ 0) ∨ nanos % 10 ≠ 0

instance (nanos : Nat) : Decidable (WholeGroups nanos) := instDecidableOr

/-- The trimmed fraction is the automatic one when it has zero, three, six or nine digits. -/
theorem fracTrimmed_eq_fracAutoSi {n : Nat} (hn : n < 10 ^ 9) :
    fracTrimmed n = fracAutoSi n ↔ WholeGroups n := by
  have key : ∀ {w j : Nat}, w + j = 9 → n ≠ 0 → n % 10 ^ j = 0 →
      ('.' :: fracDigits n = '.' :: padNat w (n / 10 ^ j) ↔ n / 10 ^ j % 10 ≠ 0) := by
    intro w j hw h0 hmod
    have hdiv : n / 10 ^ j * 10 ^ j = n := Nat.div_mul_cancel (Nat.dvd_of_mod_eq_zero hmod)
    have hpos : 0 < n / 10 ^ j := Nat.pos_of_ne_zero fun h => h0 (by rw [← hdiv, h, Nat.zero_mul])
    have hdigits := fracDigits_pow_mul hw hpos
    rw [hdiv] at hdigits
    rw [List.cons_inj_right, hdigits]
  rw [WholeGroups, fracTrimmed, fracAutoSi]
  split_ifs with h0 h6 h3
  · exact ⟨fun _ => .inl h0, fun _ => rfl⟩
  · exact (key (w := 3) (j := 6) rfl h0 h6).trans (by omega)
  · exact (key (w := 6) (j := 3) rfl h0 h3).trans (by omega)
  · have hnine := key (w := 9) (j := 0) rfl h0 (Nat.mod_one n)
    rw [Nat.pow_zero, Nat.div_one] at hnine
    exact hnine.trans (by omega)

end PmxAgents.Lib.Rfc3339
