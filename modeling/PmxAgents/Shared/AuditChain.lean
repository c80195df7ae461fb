import PmxAgents.Shared.AuditCrash

/-!
# What the hash of an audit log commits to

Two logs that pass the check and end in the same hash. The hash is taken over the
fields of an entry without separators, and over neither the sequence number, the
stored hash of the entry before nor the zone of the time. Hence the logs are the same
exactly when they have as many entries and agree, entry by entry, on those fields and
on where the others end.

## Implementation notes

The entries of a file are those a reader from sequence number zero on is sent; in a
file that passes the check every line is one of them. A first entry can take the hash
of an entry before it into its job id, so that also the number of entries is not
committed to.
-/

namespace PmxAgents.Shared.Audit

open Lib Lib.Cbor Lib.Json Lib.JsonLines Lib.Scanner

/-- Each entry carries the hash of the entry before it and of itself. -/
def Linked (sha256 : Bytes → Bytes) : Bytes → List Entry → Prop
  | _, [] => True
  | prevHash, e :: es =>
      e.hash = computeHashWithPrev sha256 prevHash e ∧ Linked sha256 e.hash es

/-- The byte strings that are hashed in the check. -/
def hashInputs : Bytes → List Entry → List Bytes
  | _, [] => []
  | prevHash, e :: es => hashInput prevHash e :: hashInputs e.hash es

/-- The hash a chain ends in. -/
def lastHash : Bytes → List Entry → Bytes
  | prevHash, [] => prevHash
  | _, e :: es => lastHash e.hash es

/-- The parts of two entries that the hash does not bind agree. -/
structure SameShape (a b : Entry) : Prop where
  seq : a.seq = b.seq
  prevHash : a.prevHash = b.prevHash
  offset : a.timestamp.offset = b.timestamp.offset
  jobID : a.jobID.length = b.jobID.length
  command : a.command.length = b.command.length
  step : a.step.length = b.step.length
  exit : (decimal a.exit).length = (decimal b.exit).length
  durationMs : (decimal a.durationMs).length = (decimal b.durationMs).length

theorem SameShape.refl (e : Entry) : SameShape e e := ⟨rfl, rfl, rfl, rfl, rfl, rfl, rfl, rfl⟩

/-! ## The check -/

theorem linked_of_verifyLines {sha256 : Bytes → Bytes} {prevHash : Bytes} {lineNum : ℕ}
    {lines : List Bytes} (h : verifyLines sha256 prevHash lineNum lines = .ok ()) :
    Linked sha256 prevHash (lines.filterMap unmarshal) := by
  induction lines generalizing prevHash lineNum with
  | nil => trivial
  | cons line lines ih =>
      rw [verifyLines] at h
      split at h
      · cases h
      · rename_i e he
        simp only at h
        split_ifs at h with hhash
        rw [List.filterMap_cons_some he]
        exact ⟨not_not.mp hhash, ih h⟩

theorem iter_zero (file : Bytes) :
    iter file 0 = (scan fileBytes file).tokens.filterMap unmarshal := by
  simp [iter]

/-- The entries of a file that passes the check are linked. -/
theorem linked_of_verify {sha256 : Bytes → Bytes} {file : Bytes}
    (h : verify sha256 file = .ok ()) : Linked sha256 [] (iter file 0) := by
  rw [iter_zero]
  simp only [verify] at h
  split at h
  · cases h
  · rename_i hlines
    exact linked_of_verifyLines hlines

theorem verifyLines_of_linked {sha256 : Bytes → Bytes} {prevHash : Bytes} {lineNum : ℕ}
    {es : List Entry} (hreadable : ∀ e ∈ es, Readable e) (h : Linked sha256 prevHash es) :
    verifyLines sha256 prevHash lineNum (es.map Entry.line) = .ok () := by
  induction es generalizing prevHash lineNum with
  | nil => rfl
  | cons e es ih =>
      obtain ⟨he, hes⟩ := List.forall_mem_cons.mp hreadable
      rw [List.map_cons, verifyLines, he.unmarshal_line]
      simp only
      rw [if_neg (not_not_intro h.1)]
      exact ih hes h.2

/-- A file of linked entries passes the check and is read back. -/
theorem verify_iter_of_linked {sha256 : Bytes → Bytes} {es : List Entry}
    (hreadable : ∀ e ∈ es, Readable e) (h : Linked sha256 [] es) :
    verify sha256 (fileOf es) = .ok () ∧ iter (fileOf es) 0 = es := by
  have hscan := scan_fileOf hreadable []
  rw [List.append_nil, scan_nil, List.append_nil] at hscan
  rw [verify, iter_zero, hscan]
  simp only [verifyLines_of_linked hreadable h]
  exact ⟨rfl, filterMap_fileOf hreadable⟩

theorem lastHash_eq (prevHash : Bytes) (es : List Entry) :
    lastHash prevHash es = (es.getLast?.map Entry.hash).getD prevHash := by
  induction es generalizing prevHash with
  | nil => rfl
  | cons e es ih =>
      rw [lastHash, ih]
      cases hlast : es.getLast? <;> simp [List.getLast?_cons, hlast]

/-! ## The hashed bytes -/

theorem rfc3339Nano_injective : Function.Injective rfc3339Nano := by
  intro a b h
  obtain ⟨hsecs, -, hfrac⟩ := Rfc3339.text_inj Rfc3339.yearPadded_readable (by omega) (by omega)
    (by omega) (by omega) (String.ofList_injective h)
  have hnanos := Rfc3339.fracTrimmed_injOn (by simp only [second]; omega)
    (by simp only [second]; omega) hfrac
  simp only [second] at hsecs hnanos
  omega

/-- Entries of the same shape are determined by the hashed bytes and the hash. -/
theorem hashInput_inj {p q : Bytes} {a b : Entry} (hp : p.length = q.length) (hs : SameShape a b)
    (hhash : a.hash = b.hash) (h : hashInput p a = hashInput q b) : p = q ∧ a = b := by
  simp only [hashInput, List.append_assoc] at h
  obtain ⟨hprev, h₁⟩ := List.append_inj h hp
  obtain ⟨hjobID, h₂⟩ := List.append_inj h₁ hs.jobID
  obtain ⟨hcommand, h₃⟩ := List.append_inj h₂ hs.command
  obtain ⟨hstep, h₄⟩ := List.append_inj h₃ hs.step
  obtain ⟨hexit, h₅⟩ := List.append_inj h₄ hs.exit
  obtain ⟨hduration, h₆⟩ := List.append_inj h₅ hs.durationMs
  have htime : a.timestamp = b.timestamp :=
    Time.ext (rfc3339Nano_injective (utf8_injective h₆)) hs.offset
  exact ⟨hprev, Entry.ext hs.seq htime hjobID hcommand hstep (decimal_injective hexit)
    (decimal_injective hduration) hs.prevHash hhash⟩

theorem computeHashWithPrev_inj {sha256 : Bytes → Bytes} {p q : Bytes} {a b : Entry}
    (h : computeHashWithPrev sha256 p a = computeHashWithPrev sha256 q b) :
    sha256 (hashInput p a) = sha256 (hashInput q b) :=
  Hex.encode_injective (utf8_injective h)

theorem length_computeHashWithPrev {sha256 : Bytes → Bytes} (hlen : ∀ x, (sha256 x).length = 32)
    (p : Bytes) (e : Entry) : (computeHashWithPrev sha256 p e).length = 64 := by
  rw [computeHashWithPrev, (Hex.utf8_encode _).1, hlen]

/-! ## Chains that end in one hash -/

/-- Back from the last hash: the entries behind a place are the same, hence also the hash there,
and with it the entry before. -/
theorem eq_of_linked {sha256 : Bytes → Bytes} (hlen : ∀ x, (sha256 x).length = 32)
    {as bs : List Entry} {p q : Bytes} (ha : Linked sha256 p as) (hb : Linked sha256 q bs)
    (hp : p.length = q.length) (hshape : List.Forall₂ SameShape as bs)
    (hcoll : ∀ x ∈ hashInputs p as, ∀ y ∈ hashInputs q bs, sha256 x = sha256 y → x = y)
    (hlast : lastHash p as = lastHash q bs) : p = q ∧ as = bs := by
  induction hshape generalizing p q with
  | nil => exact ⟨hlast, rfl⟩
  | @cons a b as bs hs _ ih =>
      have hhashes : a.hash.length = b.hash.length := by
        rw [ha.1, hb.1, length_computeHashWithPrev hlen, length_computeHashWithPrev hlen]
      obtain ⟨hhash, rfl⟩ := ih ha.2 hb.2 hhashes
        (fun x hx y hy => hcoll x (List.mem_cons_of_mem _ hx) y (List.mem_cons_of_mem _ hy)) hlast
      have hsha := computeHashWithPrev_inj (ha.1.symm.trans (hhash.trans hb.1))
      have hinput := hcoll _ List.mem_cons_self _ List.mem_cons_self hsha
      obtain ⟨hpq, rfl⟩ := hashInput_inj hp hs hhash hinput
      exact ⟨hpq, rfl⟩

/-- Two files that pass the check and end in the same hash have the same entries exactly when
their entries have the same shapes. -/
theorem iter_eq_iff_sameShape {sha256 : Bytes → Bytes} (hlen : ∀ x, (sha256 x).length = 32)
    {f g : Bytes} (hf : verify sha256 f = .ok ()) (hg : verify sha256 g = .ok ())
    (hcoll : ∀ x ∈ hashInputs [] (iter f 0) ++ hashInputs [] (iter g 0),
      ∀ y ∈ hashInputs [] (iter f 0) ++ hashInputs [] (iter g 0), sha256 x = sha256 y → x = y)
    (hlast : (iter f 0).getLast?.map Entry.hash = (iter g 0).getLast?.map Entry.hash) :
    iter f 0 = iter g 0 ↔ List.Forall₂ SameShape (iter f 0) (iter g 0) := by
  constructor
  · intro h
    rw [h]
    exact List.forall₂_same.mpr fun e _ => SameShape.refl e
  · intro hshape
    refine (eq_of_linked hlen (linked_of_verify hf) (linked_of_verify hg) rfl hshape ?_ ?_).2
    · exact fun x hx y hy =>
        hcoll x (List.mem_append_left _ hx) y (List.mem_append_right _ hy)
    · rw [lastHash_eq, lastHash_eq, hlast]

/-! ## Logs that end in one hash -/

/-- A hash of the right length, to evaluate the check with. -/
def firstBytes (x : Bytes) : Bytes := (x ++ List.replicate 32 0).take 32

instance (e : Entry) : Decidable (Readable e) :=
  decidable_of_iff (e.timestamp.stamp.Valid ∧ e.sanitize = e ∧ Fits fileBytes e.line)
    ⟨fun h => ⟨h.1, h.2.1, h.2.2⟩, fun h => ⟨h.valid, h.sanitized, h.fits⟩⟩

instance decidableLinked (sha256 : Bytes → Bytes) :
    ∀ prevHash es, Decidable (Linked sha256 prevHash es)
  | _, [] => .isTrue trivial
  | _, e :: es => @instDecidableAnd _ _ _ (decidableLinked sha256 e.hash es)

/-- The entry of a given job and command that is appended to a log. -/
def entryAfter (log : Log) (jobID command : String) : Entry :=
  log.stamped firstBytes ⟨0, ⟨0, 0⟩, utf8 jobID, utf8 command, utf8 "run", 0, 12, [], []⟩ ⟨0, 0⟩

def firstEntry (jobID command : String) : Entry := entryAfter ⟨[], 0⟩ jobID command

/-- Two entries, the second of which has the given sequence number. -/
def twoEntries (seq : ℕ) : List Entry :=
  let first := firstEntry "job-1" "status"
  [first, { entryAfter ⟨first.hash, first.seq⟩ "job-2" "status" with seq := seq }]

/-- A log whose second entry is renumbered passes the check, and is told apart by its shape. -/
theorem iter_eq_iff_sameShape_renumbered :
    let f := fileOf (twoEntries 2)
    let g := fileOf (twoEntries 3)
    verify firstBytes f = .ok () ∧ verify firstBytes g = .ok () ∧
      (iter f 0 = iter g 0 ↔ List.Forall₂ SameShape (iter f 0) (iter g 0)) ∧
      (iter f 0).length = 2 ∧ iter f 0 ≠ iter g 0 := by
  intro f g
  obtain ⟨hf, hiter⟩ : verify firstBytes f = .ok () ∧ iter f 0 = twoEntries 2 :=
    verify_iter_of_linked (by decide +kernel) (by decide +kernel)
  obtain ⟨hg, hiter'⟩ : verify firstBytes g = .ok () ∧ iter g 0 = twoEntries 3 :=
    verify_iter_of_linked (by decide +kernel) (by decide +kernel)
  refine ⟨hf, hg, iter_eq_iff_sameShape (fun x => by simp [firstBytes]) hf hg ?_ ?_, ?_⟩
  · rw [hiter, hiter']
    decide +kernel
  · rw [hiter, hiter']
    rfl
  · rw [hiter, hiter']
    decide +kernel

/-- Two logs of one entry whose job id and command are cut at different places: both pass the
check, the same bytes are hashed and the last hashes are the same. -/
theorem cut_fields_same_hash :
    let f := fileOf [firstEntry "job-1" "2status"]
    let g := fileOf [firstEntry "job-12" "status"]
    verify firstBytes f = .ok () ∧ verify firstBytes g = .ok () ∧
      hashInputs [] (iter f 0) = hashInputs [] (iter g 0) ∧
      (iter f 0).map Entry.hash = (iter g 0).map Entry.hash ∧ iter f 0 ≠ iter g 0 := by
  intro f g
  obtain ⟨hf, hiter⟩ : verify firstBytes f = .ok () ∧ iter f 0 = [firstEntry "job-1" "2status"] :=
    verify_iter_of_linked (by decide +kernel) (by decide +kernel)
  obtain ⟨hg, hiter'⟩ : verify firstBytes g = .ok () ∧ iter g 0 = [firstEntry "job-12" "status"] :=
    verify_iter_of_linked (by decide +kernel) (by decide +kernel)
  refine ⟨hf, hg, ?_⟩
  rw [hiter, hiter']
  decide +kernel

end PmxAgents.Shared.Audit
