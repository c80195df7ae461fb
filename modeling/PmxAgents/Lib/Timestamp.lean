import PmxAgents.Lib.Reader
import PmxAgents.Lib.Rfc3339

/-!
# Timestamps with a zone

A timestamp is written as the local date and time, the digits of the fraction that
are needed, and the offset of its zone from UTC. Reading checks that the date is one
of the calendar and that the numbers are in range, and returns what was written for
every year of four digits.
-/

namespace PmxAgents.Lib.Timestamp

open Calendar Rfc3339 Reader

/-- Local seconds since the epoch, nanoseconds, and the minutes the zone is ahead of UTC. -/
structure Stamp where
  secs : Int
  nanos : ℕ
  offset : Int
  deriving DecidableEq, Repr

/-- The local year has four digits, and the other parts are in range. -/
structure Stamp.Valid (s : Stamp) : Prop where
  year_nonneg : 0 ≤ (civilOfDays (s.secs / 86400)).year
  year_le : (civilOfDays (s.secs / 86400)).year ≤ 9999
  nanos_lt : s.nanos < 10 ^ 9
  offset_lt : s.offset.natAbs < 24 * 60

instance (s : Stamp) : Decidable s.Valid :=
  decidable_of_iff (0 ≤ (civilOfDays (s.secs / 86400)).year ∧
      (civilOfDays (s.secs / 86400)).year ≤ 9999 ∧ s.nanos < 10 ^ 9 ∧ s.offset.natAbs < 24 * 60)
    ⟨fun ⟨h₁, h₂, h₃, h₄⟩ => ⟨h₁, h₂, h₃, h₄⟩, fun ⟨h₁, h₂, h₃, h₄⟩ => ⟨h₁, h₂, h₃, h₄⟩⟩

/-! ## Writing -/

def writeZone (offset : Int) : List Char :=
  if offset = 0 then ['Z']
  else (if offset < 0 then '-' else '+') ::
    (padNat 2 (offset.natAbs / 60) ++ ':' :: padNat 2 (offset.natAbs % 60))

def write (s : Stamp) : List Char :=
  let date := civilOfDays (s.secs / 86400)
  let sod := (s.secs % 86400).toNat
  yearPadded date.year ++ '-' :: (padNat 2 date.month.toNat ++ '-' :: (padNat 2 date.day.toNat ++
    'T' :: (padNat 2 (sod / 3600) ++ ':' :: (padNat 2 (sod % 3600 / 60) ++
      ':' :: (padNat 2 (sod % 60) ++ (fracTrimmed s.nanos ++ writeZone s.offset))))))

/-! ## Reading -/

/-- The nanoseconds of a fraction, of which nine digits count. -/
def readFrac : Reader ℕ := fun s =>
  match s with
  | '.' :: r =>
      let ds := r.takeWhile Char.isDigit
      if ds = [] then none
      else some (Nat.ofDigitChars 10 (ds.take 9) 0 * 10 ^ (9 - (ds.take 9).length),
        r.dropWhile Char.isDigit)
  | _ => some (0, s)

/-- A number of two digits up to a bound. -/
def readTwo (max : ℕ) : Reader ℕ := do
  let n ← number 2
  if n ≤ max then return n else failure

def readZone : Reader Int := fun s =>
  match s with
  | 'Z' :: r => some (0, r)
  | c :: r =>
      if c = '+' ∨ c = '-' then
        (do
          let h ← readTwo 23
          literal [':']
          let m ← readTwo 59
          let minutes : Int := h * 60 + m
          return if c = '-' then -minutes else minutes : Reader Int) r
      else none
  | [] => none

/-- The date and the time of the day, the date as a day number. -/
def readDateTime : Reader Int := do
  let year ← number 4
  literal ['-']
  let month ← number 2
  literal ['-']
  let day ← number 2
  literal ['T']
  let h ← readTwo 23
  literal [':']
  let m ← readTwo 59
  literal [':']
  let s ← readTwo 59
  let date : Date := ⟨year, month, day⟩
  if civilOfDays (daysOfCivil date) = date then
    return daysOfCivil date * 86400 + h * 3600 + m * 60 + s
  else failure

def read (text : List Char) : Option Stamp :=
  match (do
    let secs ← readDateTime
    let nanos ← readFrac
    let offset ← readZone
    return (⟨secs, nanos, offset⟩ : Stamp) : Reader Stamp) text with
  | some (s, []) => some s
  | _ => none

example : (read "2026-02-28T23:59:59.12+01:30".toList).map write =
    some "2026-02-28T23:59:59.12+01:30".toList := by decide

example : read "2026-02-29T00:00:00Z".toList = none := by decide

/-! ## What is written is read back -/

theorem number_padNat {w n : ℕ} (hw : 0 < w) (hn : n < 10 ^ w) (r : List Char) :
    number w (padNat w n ++ r) = some (n, r) := by
  have hlen := length_padNat hw hn
  have htake : (padNat w n ++ r).take w = padNat w n := List.take_left' hlen
  have hdrop : (padNat w n ++ r).drop w = r := List.drop_left' hlen
  have hall : (padNat w n).all Char.isDigit = true :=
    List.all_eq_true.mpr fun c hc => isDigit_of_mem_padNat hc
  rw [number, htake, hdrop, if_pos ⟨hlen, hall⟩]
  exact congrArg (fun v => some (v, r)) (ofDigitChars_padNat w n)

theorem readTwo_padNat {n max : ℕ} (hn : n ≤ max) (hmax : max < 100) (r : List Char) :
    readTwo max (padNat 2 n ++ r) = some (n, r) := by
  rw [readTwo, bind_of (number_padNat (by decide) (by omega) r), if_pos hn]
  rfl

/-- Hours and minutes with a sign. -/
theorem readZone_sign {c : Char} (hc : c = '+' ∨ c = '-') {minutes : ℕ} (h : minutes < 24 * 60) :
    readZone (c :: (padNat 2 (minutes / 60) ++ ':' :: padNat 2 (minutes % 60))) =
      some (if c = '-' then -(minutes : Int) else minutes, []) := by
  have hz : c ≠ 'Z' := by rcases hc with rfl | rfl <;> decide
  have hmin := readTwo_padNat (n := minutes % 60) (by omega : _ ≤ 59) (by decide) []
  rw [List.append_nil] at hmin
  have hsum : ((minutes / 60 : ℕ) : Int) * 60 + (minutes % 60 : ℕ) = minutes := by omega
  unfold readZone
  split
  · rename_i heq
    exact absurd (List.cons.inj heq).1 hz
  · rename_i heq
    obtain ⟨rfl, rfl⟩ := List.cons.inj heq
    rw [if_pos hc, bind_of (readTwo_padNat (by omega) (by decide) _), bind_of (literal_cons _ _),
      bind_of hmin]
    simp only [hsum]
    rfl
  · rename_i heq
    cases heq

theorem readZone_writeZone {offset : Int} (h : offset.natAbs < 24 * 60) :
    readZone (writeZone offset) = some (offset, []) := by
  unfold writeZone
  split_ifs with hzero hneg
  · rw [hzero]
    rfl
  · rw [readZone_sign (Or.inr rfl) h, if_pos rfl]
    simp only [Option.some.injEq, Prod.mk.injEq, and_true]
    omega
  · rw [readZone_sign (Or.inl rfl) h, if_neg (by decide)]
    simp only [Option.some.injEq, Prod.mk.injEq, and_true]
    omega

theorem readFrac_fracTrimmed {n : ℕ} (hn : n < 10 ^ 9) {c : Char} (hdot : c ≠ '.')
    (hdigit : c.isDigit = false) (r : List Char) :
    readFrac (fracTrimmed n ++ c :: r) = some (n, c :: r) := by
  unfold fracTrimmed
  split_ifs with hzero
  · rw [hzero, List.nil_append, readFrac]
    intro r' heq
    exact hdot (List.cons.inj heq).1
  · have htake : (fracDigits n ++ c :: r).takeWhile Char.isDigit = fracDigits n := by
      rw [List.takeWhile_append_of_pos isDigit_fracDigits]
      simp [hdigit]
    have hdrop : (fracDigits n ++ c :: r).dropWhile Char.isDigit = c :: r := by
      rw [List.dropWhile_append_of_pos isDigit_fracDigits]
      simp [hdigit]
    obtain ⟨hlen, hval⟩ := ofDigitChars_fracDigits hn
    have hnine : (fracDigits n).take 9 = fracDigits n := List.take_of_length_le hlen
    change readFrac ('.' :: (fracDigits n ++ c :: r)) = _
    rw [readFrac]
    simp only [htake, hdrop, if_neg (fracDigits_ne_nil hn hzero), hnine, hval]

theorem readDateTime_write {s : Stamp} (h : s.Valid) :
    readDateTime (write s) = some (s.secs, fracTrimmed s.nanos ++ writeZone s.offset) := by
  obtain ⟨hm1, hm12, hd1, hd31⟩ := civilOfDays_range (s.secs / 86400)
  have hy0 := h.year_nonneg
  have hy9 := h.year_le
  have hyear : yearPadded (civilOfDays (s.secs / 86400)).year =
      padNat 4 (civilOfDays (s.secs / 86400)).year.toNat := by
    rw [yearPadded, if_neg (by omega)]
    congr 1
    omega
  have hdate : (⟨((civilOfDays (s.secs / 86400)).year.toNat : Int),
      ((civilOfDays (s.secs / 86400)).month.toNat : Int),
      ((civilOfDays (s.secs / 86400)).day.toNat : Int)⟩ : Date) = civilOfDays (s.secs / 86400) := by
    rw [Int.toNat_of_nonneg hy0, Int.toNat_of_nonneg (by omega), Int.toNat_of_nonneg (by omega)]
  rw [readDateTime, write, hyear, bind_of (number_padNat (by decide) (by omega) _),
    bind_of (literal_cons _ _), bind_of (number_padNat (by decide) (by omega) _),
    bind_of (literal_cons _ _), bind_of (number_padNat (by decide) (by omega) _),
    bind_of (literal_cons _ _), bind_of (readTwo_padNat (by omega) (by decide) _),
    bind_of (literal_cons _ _), bind_of (readTwo_padNat (by omega) (by decide) _),
    bind_of (literal_cons _ _), bind_of (readTwo_padNat (by omega) (by decide) _)]
  simp only [hdate, daysOfCivil_civilOfDays, if_true]
  change some (_, _) = _
  simp only [Option.some.injEq, Prod.mk.injEq, and_true]
  omega

theorem writeZone_eq_cons (offset : Int) :
    ∃ c r, writeZone offset = c :: r ∧ c ≠ '.' ∧ c.isDigit = false := by
  unfold writeZone
  split_ifs
  · exact ⟨'Z', [], rfl, by decide, by decide⟩
  · exact ⟨'-', _, rfl, by decide, by decide⟩
  · exact ⟨'+', _, rfl, by decide, by decide⟩

/-- A timestamp whose year has four digits is read back. -/
theorem read_write {s : Stamp} (h : s.Valid) : read (write s) = some s := by
  obtain ⟨c, r, hzone, hdot, hdigit⟩ := writeZone_eq_cons s.offset
  have hfrac : readFrac (fracTrimmed s.nanos ++ writeZone s.offset) =
      some (s.nanos, writeZone s.offset) := by
    rw [hzone]
    exact readFrac_fracTrimmed h.nanos_lt hdot hdigit r
  rw [read, bind_of (readDateTime_write h), bind_of hfrac,
    bind_of (readZone_writeZone h.offset_lt)]
  rfl

theorem lt_of_isDigit {c : Char} (h : c.isDigit) : c.toNat < 128 :=
  Nat.lt_of_le_of_lt (Char.isDigit_iff_toNat.mp h).2 (by decide)

/-- A written timestamp is ASCII text. -/
theorem lt_of_mem_write {s : Stamp} : ∀ c ∈ write s, c.toNat < 128 := by
  have hpad : ∀ w n, ∀ c ∈ padNat w n, c.toNat < 128 := fun w n c hc =>
    lt_of_isDigit (isDigit_of_mem_padNat hc)
  have hyear : ∀ c ∈ yearPadded (civilOfDays (s.secs / 86400)).year, c.toNat < 128 := by
    unfold yearPadded
    split_ifs
    · exact List.forall_mem_cons.mpr ⟨by decide, hpad _ _⟩
    · exact hpad _ _
  have hfrac : ∀ c ∈ fracTrimmed s.nanos, c.toNat < 128 := by
    unfold fracTrimmed
    split_ifs
    · simp
    · exact List.forall_mem_cons.mpr
        ⟨by decide, fun c hc => lt_of_isDigit (isDigit_fracDigits (n := s.nanos) c hc)⟩
  have hzone : ∀ c ∈ writeZone s.offset, c.toNat < 128 := by
    have hminutes : ∀ c ∈ padNat 2 (s.offset.natAbs / 60) ++ ':' :: padNat 2 (s.offset.natAbs % 60),
        c.toNat < 128 :=
      List.forall_mem_append.mpr ⟨hpad _ _, List.forall_mem_cons.mpr ⟨by decide, hpad _ _⟩⟩
    unfold writeZone
    split_ifs
    · exact List.forall_mem_singleton.mpr (by decide)
    · exact List.forall_mem_cons.mpr ⟨by decide, hminutes⟩
    · exact List.forall_mem_cons.mpr ⟨by decide, hminutes⟩
  simp only [write, List.forall_mem_append, List.forall_mem_cons]
  exact ⟨hyear, by decide, hpad _ _, by decide, hpad _ _, by decide, hpad _ _, by decide, hpad _ _,
    by decide, hpad _ _, hfrac, hzone⟩

end PmxAgents.Lib.Timestamp
