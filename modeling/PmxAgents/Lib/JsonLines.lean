import PmxAgents.Lib.Json
import PmxAgents.Lib.Scanner

/-!
# Files of JSON lines

A file of written objects, one a line, as a scanner with a bounded buffer reads it.
Objects whose lines fit are all yielded and the scan goes on behind them. A line that
was cut off is yielded as it is, which is the text of no object, and a line that does
not fit ends the scan with an error wherever it stands.
-/

namespace PmxAgents.Lib.JsonLines

open Cbor Json Scanner

/-- The alphabet of a file. -/
def fileBytes : Alphabet UInt8 := ⟨0x0a, 0x0d, fun _ => 1⟩

/-- The file of some objects. -/
def linesOf (objects : List (List Member)) : Bytes :=
  objects.flatMap fun ms => writeObject ms ++ [0x0a]

theorem linesOf_append (as bs : List (List Member)) :
    linesOf (as ++ bs) = linesOf as ++ linesOf bs :=
  List.flatMap_append

theorem linesOf_singleton (ms : List Member) : linesOf [ms] = writeObject ms ++ [0x0a] := by
  simp [linesOf]

section Lines
variable {ms : List Member}

theorem writeObject_ne_nil (ms : List Member) : writeObject ms ≠ [] := by
  intro h
  have hlast := getLast?_writeObject ms
  rw [h] at hlast
  cases hlast

theorem newline_notMem_writeObject (ms : List Member) : (0x0a : UInt8) ∉ writeObject ms :=
  fun hm => absurd (le_of_mem_writeObject _ hm) (by decide)

theorem dropCR_writeObject (ms : List Member) :
    dropCR fileBytes (writeObject ms) = writeObject ms :=
  dropCR_of_getLast? fileBytes (getLast?_writeObject ms) (by decide)

theorem scan_writeObject (h : Fits fileBytes (writeObject ms)) (rest : Bytes) :
    scan fileBytes (writeObject ms ++ 0x0a :: rest) =
      ⟨writeObject ms :: (scan fileBytes rest).tokens, (scan fileBytes rest).tooLong⟩ := by
  have hscan := scan_line fileBytes (newline_notMem_writeObject ms) h rest
  rw [dropCR_writeObject] at hscan
  exact hscan

/-- A line that was cut off. -/
theorem scan_torn {p : Bytes} (hp : p <+: writeObject ms) (hne : p ≠ []) :
    scan fileBytes p = if Fits fileBytes p then ⟨[p], false⟩ else ⟨[], true⟩ := by
  have hnewline : (0x0a : UInt8) ∉ p := fun hm => newline_notMem_writeObject ms (hp.subset hm)
  have hlast : p.getLast? = some (p.getLast hne) := List.getLast?_eq_some_getLast hne
  have hcr : p.getLast hne ≠ 0x0d := fun hcr => by
    have hle := le_of_mem_writeObject _ (hp.subset (List.getLast_mem hne))
    rw [hcr] at hle
    exact absurd hle (by decide)
  split_ifs with hfits
  · rw [scan_last fileBytes hnewline hne hfits, dropCR_of_getLast? fileBytes hlast hcr]
  · have hlong := scan_tooLong fileBytes hnewline hfits (Or.inl rfl)
    rwa [List.append_nil] at hlong

end Lines

section Files
variable {objects : List (List Member)}

/-- Behind objects whose lines fit the scan goes on. -/
theorem scan_linesOf (h : ∀ ms ∈ objects, Fits fileBytes (writeObject ms)) (rest : Bytes) :
    scan fileBytes (linesOf objects ++ rest) =
      ⟨objects.map writeObject ++ (scan fileBytes rest).tokens, (scan fileBytes rest).tooLong⟩ := by
  induction objects with
  | nil => rfl
  | cons ms objects ih =>
      have htext : linesOf (ms :: objects) ++ rest =
          writeObject ms ++ 0x0a :: (linesOf objects ++ rest) := by
        simp [linesOf]
      rw [htext, scan_writeObject (h ms List.mem_cons_self),
        ih fun o ho => h o (List.mem_cons_of_mem _ ho)]
      rfl

/-- A line that does not fit ends the scan, whatever follows. -/
theorem scan_linesOf_tooLong (h : ¬ ∀ ms ∈ objects, Fits fileBytes (writeObject ms))
    (rest : Bytes) : (scan fileBytes (linesOf objects ++ rest)).tooLong = true := by
  induction objects with
  | nil => exact absurd (fun _ hm => nomatch hm) h
  | cons ms objects ih =>
      have htext : linesOf (ms :: objects) ++ rest =
          writeObject ms ++ 0x0a :: (linesOf objects ++ rest) := by
        simp [linesOf]
      rw [htext]
      by_cases hfits : Fits fileBytes (writeObject ms)
      · rw [scan_writeObject hfits]
        exact ih fun hall => h (List.forall_mem_cons.mpr ⟨hfits, hall⟩)
      · rw [scan_tooLong fileBytes (newline_notMem_writeObject ms) hfits (Or.inr rfl)]

end Files

end PmxAgents.Lib.JsonLines
