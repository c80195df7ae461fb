import Mathlib.Data.List.Infix
import Mathlib.Data.List.Nodup
import Mathlib.Data.List.TakeDrop
import PmxAgents.Lib.Cbor
import PmxAgents.Lib.Checks

/-!
# Encrypted archives

An archive is encrypted chunk by chunk. A header carries a random nonce and a
declared chunk size, and every chunk is sealed on its own, under the nonce with the
index of the chunk in its last four bytes. Neither the header nor the end of the
file is sealed: a file that stops after any of its chunks is accepted.

## Implementation notes

The source is read in pieces whose sizes the operating system chooses; every piece
is one chunk. The sealing calls of a file are kept as a list of nonces with the
sealed pieces, so that the nonces of a file are those that are really used.

`decryptFile` returns what it has written to the destination together with its
error: chunks before a broken one are written. The reader of the source is the
list of the bytes that are left.
-/

namespace PmxAgents.Backup.Sync

open Lib Lib.Cbor Lib.Checks

/-- The authenticated cipher of the platform; opening fails on what was not sealed. -/
structure Cipher where
  sealChunk : Bytes → Bytes → Bytes → Bytes
  openChunk : Bytes → Bytes → Bytes → Option Bytes

def keySize : ℕ := 32

def nonceSize : ℕ := 12

def overhead : ℕ := 16

/-- The largest chunk the reader takes. -/
def maxChunk : ℕ := 16 * 1024 * 1024

/-! ## Encryption -/

def chunkSize : ℕ := 1024 * 1024

def encryptedMagic : Bytes := utf8 "PMXBKP01"

def le32 (n : ℕ) : Bytes := [n, n / 2 ^ 8, n / 2 ^ 16, n / 2 ^ 24].map UInt8.ofNat

/-- The nonce of a chunk: its index in the last four bytes. -/
def chunkNonce (baseNonce : Bytes) (index : ℕ) : Bytes :=
  baseNonce.take (baseNonce.length - 4) ++ le32 index

inductive EncryptError where
  | initCipher
  deriving DecidableEq

/-- The sealing calls of the loop, from a chunk index on: the nonces and the pieces. An empty
piece is passed over. -/
def chunks (baseNonce : Bytes) : ℕ → List Bytes → List (Bytes × Bytes)
  | _, [] => []
  | chunkIndex, buffer :: rest =>
      if 0 < buffer.length then
        (chunkNonce baseNonce chunkIndex, buffer) :: chunks baseNonce (chunkIndex + 1) rest
      else chunks baseNonce chunkIndex rest

def header (baseNonce : Bytes) (size : ℕ) : Bytes := encryptedMagic ++ baseNonce ++ le32 size

/-- A length prefix and the sealed chunk. -/
def writeChunk (C : Cipher) (key : Bytes) (chunk : Bytes × Bytes) : Bytes :=
  le32 chunk.2.length ++ C.sealChunk key chunk.1 chunk.2

/-- The bytes of the temporary file for the pieces the source was read in. -/
def encrypted (C : Cipher) (key baseNonce : Bytes) (reads : List Bytes) : Bytes :=
  header baseNonce chunkSize ++ (chunks baseNonce 0 reads).flatMap (writeChunk C key)

def encryptToTemp (C : Cipher) (key baseNonce : Bytes) (reads : List Bytes) :
    Except EncryptError Bytes :=
  if key.length ≠ keySize then .error .initCipher else .ok (encrypted C key baseNonce reads)

/-! ## Decryption -/

/-- The number in four bytes, the lowest first. -/
def ofLe32 : Bytes → ℕ
  | [a, b, c, d] => a.toNat + 2 ^ 8 * b.toNat + 2 ^ 16 * c.toNat + 2 ^ 24 * d.toNat
  | _ => 0

inductive ReadFull where
  | eof
  | unexpectedEOF
  | full (buf rest : Bytes)

/-- Fill a buffer of `n` bytes. -/
def readFull (n : ℕ) (r : Bytes) : ReadFull :=
  if n ≤ r.length then .full (r.take n) (r.drop n)
  else if r = [] then .eof
  else .unexpectedEOF

inductive DecryptError where
  | readMagic
  | invalidFormat
  | initCipher
  | readNonce
  | readChunkSize
  | invalidChunkSize (size : ℕ)
  | truncatedLengthPrefix
  | invalidChunkLength (length : ℕ)
  | readEncryptedChunk
  | integrityCheckFailed (chunkIndex : ℕ)
  deriving DecidableEq

/-- Fill a buffer; the end of the file is an error. -/
def readOr (err : DecryptError) (n : ℕ) (r : Bytes) : Except DecryptError (Bytes × Bytes) :=
  match readFull n r with
  | .full buf rest => .ok (buf, rest)
  | _ => .error err

/-- The nonce of the header, and the bytes after the header. -/
def readHeader (key r : Bytes) : Except DecryptError (Bytes × Bytes) := do
  let (magic, r) ← readOr .readMagic encryptedMagic.length r
  if magic ≠ encryptedMagic then throw .invalidFormat
  else if key.length ≠ keySize then throw .initCipher
  else
    let (baseNonce, r) ← readOr .readNonce nonceSize r
    let (chunkSizeHeader, r) ← readOr .readChunkSize 4 r
    let declaredChunkSize := ofLe32 chunkSizeHeader
    if declaredChunkSize = 0 ∨ maxChunk < declaredChunkSize then
      throw (.invalidChunkSize declaredChunkSize)
    else return (baseNonce, r)

/-- One chunk: the opened bytes and the bytes after it. -/
def readChunk (C : Cipher) (key baseNonce : Bytes) (chunkIndex : ℕ) (plainLenPrefix r : Bytes) :
    Except DecryptError (Bytes × Bytes) :=
  let plainLen := ofLe32 plainLenPrefix
  if plainLen = 0 ∨ maxChunk < plainLen then throw (.invalidChunkLength plainLen)
  else do
    let (sealed, r) ← readOr .readEncryptedChunk (plainLen + overhead) r
    match C.openChunk key (chunkNonce baseNonce chunkIndex) sealed with
    | none => throw (.integrityCheckFailed (chunkIndex % 2 ^ 32))
    | some opened => return (opened, r)

/-- The loop over the chunks: what it writes, and the error it ends with. Every round reads a
byte, so a fuel above the number of bytes never runs out. -/
def decryptChunks (C : Cipher) (key baseNonce : Bytes) :
    ℕ → ℕ → Bytes → Bytes × Option DecryptError
  | 0, _, _ => ([], some .truncatedLengthPrefix)
  | fuel + 1, chunkIndex, r =>
      match readFull 4 r with
      | .eof => ([], none)
      | .unexpectedEOF => ([], some .truncatedLengthPrefix)
      | .full plainLenPrefix r =>
          match readChunk C key baseNonce chunkIndex plainLenPrefix r with
          | .error err => ([], some err)
          | .ok (opened, r) =>
              let rest := decryptChunks C key baseNonce fuel (chunkIndex + 1) r
              (opened ++ rest.1, rest.2)

/-- The bytes of the destination file, if it was created, and the error. -/
structure Decrypted where
  destination : Option Bytes
  error : Option DecryptError
  deriving DecidableEq

def decryptFile (C : Cipher) (key file : Bytes) : Decrypted :=
  match readHeader key file with
  | .error err => ⟨none, some err⟩
  | .ok (baseNonce, r) =>
      let written := decryptChunks C key baseNonce (r.length + 1) 0 r
      ⟨some written.1, written.2⟩

/-! ## Numbers in four bytes -/

@[simp] theorem length_le32 (n : ℕ) : (le32 n).length = 4 := rfl

theorem ofLe32_le32 {n : ℕ} (h : n < 2 ^ 32) : ofLe32 (le32 n) = n := by
  simp only [le32, List.map_cons, List.map_nil, ofLe32, UInt8.toNat_ofNat']
  omega

theorem le32_ofLe32 {b : Bytes} (h : b.length = 4) : le32 (ofLe32 b) = b := by
  obtain ⟨x, y, z, w, rfl⟩ : ∃ x y z w, b = [x, y, z, w] := by
    match b, h with
    | [x, y, z, w], _ => exact ⟨x, y, z, w, rfl⟩
  have hx := x.toNat_lt
  have hy := y.toNat_lt
  have hz := z.toNat_lt
  have hw := w.toNat_lt
  simp only [ofLe32, le32, List.map_cons, List.map_nil, List.cons.injEq, and_true]
  refine ⟨?_, ?_, ?_, ?_⟩
  all_goals
    apply UInt8.toNat_inj.mp
    rw [UInt8.toNat_ofNat']
    omega

theorem le32_inj {n m : ℕ} (hn : n < 2 ^ 32) (hm : m < 2 ^ 32) (h : le32 n = le32 m) : n = m := by
  rw [← ofLe32_le32 hn, ← ofLe32_le32 hm, h]

/-! ## Reading -/

theorem readFull_eq_full {n : ℕ} {r buf rest : Bytes} :
    readFull n r = .full buf rest ↔ r = buf ++ rest ∧ buf.length = n := by
  unfold readFull
  constructor
  · intro h
    split_ifs at h with hle
    obtain ⟨rfl, rfl⟩ := ReadFull.full.inj h
    exact ⟨(List.take_append_drop n r).symm, List.length_take_of_le hle⟩
  · rintro ⟨rfl, rfl⟩
    simp

theorem readFull_eq_eof {n : ℕ} {r : Bytes} (h : readFull n r = .eof) : r = [] := by
  unfold readFull at h
  split_ifs at h with hle hnil
  exact hnil

theorem readOr_eq_ok {err : DecryptError} {n : ℕ} {r buf rest : Bytes} :
    readOr err n r = .ok (buf, rest) ↔ r = buf ++ rest ∧ buf.length = n := by
  rw [← readFull_eq_full, readOr]
  cases readFull n r <;> simp

theorem readHeader_eq_ok {key file baseNonce r : Bytes} :
    readHeader key file = .ok (baseNonce, r) ↔
      key.length = keySize ∧ baseNonce.length = nonceSize ∧
        ∃ size, 0 < size ∧ size ≤ maxChunk ∧ file = header baseNonce size ++ r := by
  simp only [readHeader, bind_eq_ok, ite_throw_eq_ok, readOr_eq_ok, Prod.exists, not_not]
  constructor
  · rintro ⟨magic, r₁, ⟨rfl, -⟩, rfl, hkey, nonce, r₂, ⟨rfl, hnonce⟩, size, r₃, ⟨rfl, hsize⟩,
      hrange, h⟩
    obtain ⟨rfl, rfl⟩ := Prod.mk.inj (Except.ok.inj h)
    push Not at hrange
    refine ⟨hkey, hnonce, ofLe32 size, Nat.pos_of_ne_zero hrange.1, hrange.2, ?_⟩
    simp [header, le32_ofLe32 hsize]
  · rintro ⟨hkey, hnonce, size, hpos, hmax, rfl⟩
    have hsize : ofLe32 (le32 size) = size := by
      apply ofLe32_le32
      exact Nat.lt_of_le_of_lt hmax (by decide)
    refine ⟨encryptedMagic, baseNonce ++ le32 size ++ r, ⟨by simp [header], rfl⟩, rfl, hkey,
      baseNonce, le32 size ++ r, ⟨by simp, hnonce⟩, le32 size, r, ⟨rfl, rfl⟩, ?_, rfl⟩
    rw [hsize]
    omega

theorem readChunk_eq_ok {C : Cipher} {key baseNonce plainLenPrefix r opened rest : Bytes}
    {chunkIndex : ℕ} :
    readChunk C key baseNonce chunkIndex plainLenPrefix r = .ok (opened, rest) ↔
      ∃ sealed, 0 < ofLe32 plainLenPrefix ∧ ofLe32 plainLenPrefix ≤ maxChunk ∧
        r = sealed ++ rest ∧ sealed.length = ofLe32 plainLenPrefix + overhead ∧
        C.openChunk key (chunkNonce baseNonce chunkIndex) sealed = some opened := by
  simp only [readChunk, bind_eq_ok, ite_throw_eq_ok, readOr_eq_ok, Prod.exists]
  constructor
  · rintro ⟨hrange, sealed, r', ⟨rfl, hlen⟩, h⟩
    push Not at hrange
    cases hopen : C.openChunk key (chunkNonce baseNonce chunkIndex) sealed with
    | none => simp [hopen, throw, throwThe, MonadExceptOf.throw] at h
    | some p =>
        simp only [hopen, pure, Except.pure, Except.ok.injEq, Prod.mk.injEq] at h
        obtain ⟨rfl, rfl⟩ := h
        exact ⟨sealed, Nat.pos_of_ne_zero hrange.1, hrange.2, rfl, hlen, hopen⟩
  · rintro ⟨sealed, hpos, hmax, rfl, hlen, hopen⟩
    refine ⟨by omega, sealed, rest, ⟨rfl, hlen⟩, ?_⟩
    rw [hopen]
    rfl

/-! ## The chunks of a file -/

theorem map_snd_chunks (baseNonce : Bytes) (i : ℕ) (reads : List Bytes) :
    ((chunks baseNonce i reads).map Prod.snd).flatten = reads.flatten := by
  induction reads generalizing i with
  | nil => rfl
  | cons buffer rest ih =>
      unfold chunks
      split
      · simp [ih]
      · rename_i hempty
        have hnil : buffer = [] := List.length_eq_zero_iff.mp (by omega)
        simp [ih, hnil]

theorem map_fst_chunks (baseNonce : Bytes) (i : ℕ) (reads : List Bytes) :
    (chunks baseNonce i reads).map Prod.fst =
      (List.range' i (chunks baseNonce i reads).length).map (chunkNonce baseNonce) := by
  induction reads generalizing i with
  | nil => rfl
  | cons buffer rest ih =>
      unfold chunks
      split
      · simp [List.range'_succ, ih]
      · exact ih i

theorem length_chunks_le (baseNonce : Bytes) (i : ℕ) (reads : List Bytes) :
    (chunks baseNonce i reads).length ≤ reads.length := by
  induction reads generalizing i with
  | nil => exact Nat.le_refl 0
  | cons buffer rest ih =>
      unfold chunks
      split
      · simpa using ih (i + 1)
      · exact (ih i).trans (by simp)

theorem chunkNonce_inj {baseNonce : Bytes} {i j : ℕ} (hi : i < 2 ^ 32) (hj : j < 2 ^ 32)
    (h : chunkNonce baseNonce i = chunkNonce baseNonce j) : i = j :=
  le32_inj hi hj (List.append_cancel_left h)

/-- Below the range of the counter no nonce is used twice in a file. -/
theorem nodup_nonces {baseNonce : Bytes} {reads : List Bytes} (h : reads.length < 2 ^ 32) :
    ((chunks baseNonce 0 reads).map Prod.fst).Nodup := by
  have hlen := length_chunks_le baseNonce 0 reads
  rw [map_fst_chunks]
  refine List.Nodup.map_on (fun i hi j hj hij => ?_) List.nodup_range'
  rw [List.mem_range'_1] at hi hj
  exact chunkNonce_inj (by omega) (by omega) hij

theorem length_flatMap_writeChunk (C : Cipher) (key : Bytes) (cs : List (Bytes × Bytes)) :
    4 * cs.length ≤ (cs.flatMap (writeChunk C key)).length := by
  induction cs with
  | nil => simp
  | cons c rest ih =>
      simp only [List.flatMap_cons, List.length_append, List.length_cons, writeChunk, length_le32]
      omega

/-! ## What is known of the cipher -/

/-- Sealing adds the tag, and opening inverts it. -/
structure Cipher.Lawful (C : Cipher) (key : Bytes) : Prop where
  length_seal : ∀ nonce chunk, (C.sealChunk key nonce chunk).length = chunk.length + overhead
  open_seal : ∀ nonce chunk, C.openChunk key nonce (C.sealChunk key nonce chunk) = some chunk

section RoundTrip
variable {C : Cipher} {key baseNonce : Bytes}

/-- A round of the loop over a chunk that was sealed at its index. -/
theorem decryptChunks_writeChunk (hC : C.Lawful key) {fuel i : ℕ} {chunk : Bytes} (r : Bytes)
    (hpos : 0 < chunk.length) (hmax : chunk.length ≤ maxChunk) :
    decryptChunks C key baseNonce (fuel + 1) i
        (writeChunk C key (chunkNonce baseNonce i, chunk) ++ r) =
      (chunk ++ (decryptChunks C key baseNonce fuel (i + 1) r).1,
        (decryptChunks C key baseNonce fuel (i + 1) r).2) := by
  have hlen : ofLe32 (le32 chunk.length) = chunk.length :=
    ofLe32_le32 (Nat.lt_of_le_of_lt hmax (by decide))
  have hread : readChunk C key baseNonce i (le32 chunk.length)
      (C.sealChunk key (chunkNonce baseNonce i) chunk ++ r) = .ok (chunk, r) := by
    apply readChunk_eq_ok.mpr
    rw [hlen]
    exact ⟨_, hpos, hmax, rfl, hC.length_seal _ _, hC.open_seal _ _⟩
  have hfull : readFull 4 (writeChunk C key (chunkNonce baseNonce i, chunk) ++ r) =
      .full (le32 chunk.length) (C.sealChunk key (chunkNonce baseNonce i) chunk ++ r) := by
    rw [writeChunk, List.append_assoc]
    exact readFull_eq_full.mpr ⟨rfl, rfl⟩
  rw [decryptChunks, hfull]
  simp only [hread]

/-- The loop reads back the pieces that were written. -/
theorem decryptChunks_chunks (hC : C.Lawful key) {reads : List Bytes}
    (hmax : ∀ buffer ∈ reads, buffer.length ≤ maxChunk) {fuel i : ℕ}
    (hfuel : ((chunks baseNonce i reads).flatMap (writeChunk C key)).length < fuel) :
    decryptChunks C key baseNonce fuel i
      ((chunks baseNonce i reads).flatMap (writeChunk C key)) = (reads.flatten, none) := by
  induction reads generalizing fuel i with
  | nil =>
      obtain ⟨fuel, rfl⟩ : ∃ k, fuel = k + 1 := ⟨fuel - 1, by omega⟩
      rfl
  | cons buffer rest ih =>
      have hrest : ∀ b ∈ rest, b.length ≤ maxChunk := fun b hb => hmax b (by simp [hb])
      unfold chunks at hfuel ⊢
      split
      · rename_i hpos
        rw [if_pos hpos] at hfuel
        obtain ⟨fuel, rfl⟩ : ∃ k, fuel = k + 1 := ⟨fuel - 1, by omega⟩
        have hlt : ((chunks baseNonce (i + 1) rest).flatMap (writeChunk C key)).length < fuel := by
          simp only [List.flatMap_cons, List.length_append, writeChunk, length_le32] at hfuel
          omega
        rw [List.flatMap_cons, decryptChunks_writeChunk hC _ hpos (hmax buffer (by simp)),
          ih hrest hlt]
        rfl
      · rename_i hempty
        rw [if_neg hempty] at hfuel
        have hnil : buffer = [] := List.length_eq_zero_iff.mp (by omega)
        rw [ih hrest hfuel, hnil]
        rfl

end RoundTrip

/-- Whatever pieces the source is read in, the file decrypts to the source, and its chunks are
sealed under different nonces. -/
theorem decryptFile_encryptToTemp {C : Cipher} {key baseNonce source : Bytes} {reads : List Bytes}
    (hC : C.Lawful key) (hkey : key.length = keySize) (hnonce : baseNonce.length = nonceSize)
    (hsource : reads.flatten = source)
    (hreads : ∀ buffer ∈ reads, 1 ≤ buffer.length ∧ buffer.length ≤ chunkSize)
    (hcount : reads.length < 2 ^ 32) :
    ∃ file, encryptToTemp C key baseNonce reads = .ok file ∧
      decryptFile C key file = ⟨some source, none⟩ ∧
      ((chunks baseNonce 0 reads).map Prod.fst).Nodup := by
  refine ⟨_, by rw [encryptToTemp, if_neg (not_not.mpr hkey), encrypted], ?_, nodup_nonces hcount⟩
  have hheader : readHeader key
      (header baseNonce chunkSize ++ (chunks baseNonce 0 reads).flatMap (writeChunk C key)) =
        .ok (baseNonce, (chunks baseNonce 0 reads).flatMap (writeChunk C key)) :=
    readHeader_eq_ok.mpr ⟨hkey, hnonce, chunkSize, by decide, by decide, rfl⟩
  have hmax : ∀ buffer ∈ reads, buffer.length ≤ maxChunk := fun buffer hb =>
    (hreads buffer hb).2.trans (by decide)
  rw [decryptFile, hheader]
  simp only [decryptChunks_chunks hC hmax (Nat.lt_succ_self _), hsource]

/-- A cipher that appends an empty tag. -/
def plainCipher : Cipher where
  sealChunk := fun _ _ chunk => chunk ++ List.replicate overhead 0
  openChunk := fun _ _ sealed => some (sealed.take (sealed.length - overhead))

theorem plainCipher_lawful (key : Bytes) : plainCipher.Lawful key where
  length_seal := fun _ chunk => by simp [plainCipher]
  open_seal := fun _ chunk => by simp [plainCipher]

theorem decryptFile_encryptToTemp_twoReads :
    ∃ file, encryptToTemp plainCipher (List.replicate 32 7) (List.replicate 12 1)
        [[65, 66], [67]] = .ok file ∧
      decryptFile plainCipher (List.replicate 32 7) file = ⟨some [65, 66, 67], none⟩ ∧
      ((chunks (List.replicate 12 1) 0 [[65, 66], [67]]).map Prod.fst).Nodup :=
  decryptFile_encryptToTemp (plainCipher_lawful _) rfl rfl rfl (by decide) (by decide)

/-! ## Which files are accepted -/

/-- A call of `encryptToTemp`: the random nonce and the pieces the source was read in. -/
structure Call where
  baseNonce : Bytes
  reads : List Bytes
  length_baseNonce : baseNonce.length = nonceSize
  length_le : ∀ buffer ∈ reads, buffer.length ≤ chunkSize

def Call.chunks (call : Call) : List (Bytes × Bytes) := Sync.chunks call.baseNonce 0 call.reads

def Call.output (C : Cipher) (key : Bytes) (call : Call) : Except EncryptError Bytes :=
  encryptToTemp C key call.baseNonce call.reads

/-- The cipher under a key that has sealed the chunks of the calls and nothing else: every
nonce was used once, as the cipher requires, what was sealed opens, and nothing else does. -/
structure Cipher.Unforgeable (C : Cipher) (key : Bytes) (calls : List Call) : Prop where
  length_seal : ∀ nonce chunk, (C.sealChunk key nonce chunk).length = chunk.length + overhead
  nonce_once : ((calls.flatMap Call.chunks).map Prod.fst).Nodup
  open_seal : ∀ c ∈ calls.flatMap Call.chunks,
    C.openChunk key c.1 (C.sealChunk key c.1 c.2) = some c.2
  sealed_of_open : ∀ nonce sealed opened, C.openChunk key nonce sealed = some opened →
    ∃ chunk, (nonce, chunk) ∈ calls.flatMap Call.chunks ∧ sealed = C.sealChunk key nonce chunk

section Accepted
variable {C : Cipher} {key : Bytes} {calls : List Call}

/-- A chunk that is read was sealed under the nonce of its place. -/
theorem readChunk_sealed (hC : C.Unforgeable key calls) {baseNonce lenPrefix r opened rest : Bytes}
    {i : ℕ} (hlen : lenPrefix.length = 4)
    (h : readChunk C key baseNonce i lenPrefix r = .ok (opened, rest)) :
    0 < opened.length ∧ (chunkNonce baseNonce i, opened) ∈ calls.flatMap Call.chunks ∧
      lenPrefix ++ r = writeChunk C key (chunkNonce baseNonce i, opened) ++ rest := by
  obtain ⟨sealed, hpos, -, rfl, hsealed, hopen⟩ := readChunk_eq_ok.mp h
  obtain ⟨chunk, hmem, rfl⟩ := hC.sealed_of_open _ _ _ hopen
  obtain rfl : chunk = opened := by
    exact Option.some.inj ((hC.open_seal _ hmem).symm.trans hopen)
  have hplain : ofLe32 lenPrefix = chunk.length := by
    rw [hC.length_seal] at hsealed
    omega
  refine ⟨hplain ▸ hpos, hmem, ?_⟩
  rw [writeChunk, ← hplain, le32_ofLe32 hlen, List.append_assoc]

/-- A loop that ends well has read chunks that were sealed, each under the nonce of its
place. -/
theorem decryptChunks_sealed (hC : C.Unforgeable key calls) {baseNonce : Bytes} {fuel i : ℕ}
    {r w : Bytes} (h : decryptChunks C key baseNonce fuel i r = (w, none)) :
    ∃ ps, r = (chunks baseNonce i ps).flatMap (writeChunk C key) ∧ w = ps.flatten ∧
      ∀ c ∈ chunks baseNonce i ps, c ∈ calls.flatMap Call.chunks := by
  induction fuel generalizing i r w with
  | zero => cases h
  | succ fuel ih =>
      unfold decryptChunks at h
      split at h
      · rename_i heof
        obtain rfl := readFull_eq_eof heof
        obtain rfl : [] = w := (Prod.mk.inj h).1
        exact ⟨[], rfl, rfl, by simp [chunks]⟩
      · cases h
      · rename_i lenPrefix r' hfull
        split at h
        · cases h
        · rename_i opened rest hread
          obtain ⟨rfl, hlen⟩ := readFull_eq_full.mp hfull
          obtain ⟨hpos, hmem, hbytes⟩ := readChunk_sealed hC hlen hread
          obtain ⟨rfl, herr⟩ := Prod.mk.inj h
          obtain ⟨ps, rfl, hw, hps⟩ := ih (Prod.ext rfl herr)
          refine ⟨opened :: ps, ?_, congrArg (opened ++ ·) hw, ?_⟩
          · rw [chunks, if_pos hpos, hbytes, List.flatMap_cons]
          · rw [chunks, if_pos hpos]
            exact List.forall_mem_cons.mpr ⟨hmem, hps⟩

/-- An accepted file is a header followed by chunks that were sealed at their places. -/
theorem decryptFile_sealed (hC : C.Unforgeable key calls) {file w : Bytes}
    (h : decryptFile C key file = ⟨some w, none⟩) :
    key.length = keySize ∧ ∃ baseNonce size ps, baseNonce.length = nonceSize ∧
      file = header baseNonce size ++ (chunks baseNonce 0 ps).flatMap (writeChunk C key) ∧
      w = ps.flatten ∧ ∀ c ∈ chunks baseNonce 0 ps, c ∈ calls.flatMap Call.chunks := by
  unfold decryptFile at h
  split at h
  · cases h
  · rename_i baseNonce r hheader
    obtain ⟨hkey, hnonce, size, -, -, rfl⟩ := readHeader_eq_ok.mp hheader
    obtain ⟨hw, herr⟩ := Decrypted.mk.inj h
    obtain ⟨ps, rfl, hps, hmem⟩ := decryptChunks_sealed hC
      (Prod.ext (Option.some.inj hw) herr)
    exact ⟨hkey, baseNonce, size, ps, hnonce, rfl, hps, hmem⟩

end Accepted

/-- Two lists of pairs that have the same first components place by place, and in which the
first component determines the pair, are one the start of the other. -/
theorem isPrefix_or_isPrefix {α β : Type*} {as bs : List (α × β)}
    (hfst : ∀ (j : ℕ) (a b : α × β), as[j]? = some a → bs[j]? = some b → a.1 = b.1)
    (hdet : ∀ a ∈ as, ∀ b ∈ bs, a.1 = b.1 → a = b) : as <+: bs ∨ bs <+: as := by
  induction as generalizing bs with
  | nil => exact Or.inl (List.nil_prefix)
  | cons a as ih =>
      cases bs with
      | nil => exact Or.inr (List.nil_prefix)
      | cons b bs =>
          obtain rfl := hdet a (by simp) b (by simp) (hfst 0 a b rfl rfl)
          have hrest := ih (fun j x y hx hy => hfst (j + 1) x y hx hy)
            (fun x hx y hy => hdet x (by simp [hx]) y (by simp [hy]))
          simpa [List.cons_prefix_cons] using hrest

theorem fst_chunks {baseNonce : Bytes} {i j : ℕ} {reads : List Bytes} {c : Bytes × Bytes}
    (h : (chunks baseNonce i reads)[j]? = some c) : c.1 = chunkNonce baseNonce (i + j) := by
  obtain ⟨hj, rfl⟩ := List.getElem?_eq_some_iff.mp h
  have hmap := congrArg (fun l => l[j]?) (map_fst_chunks baseNonce i reads)
  simpa [hj] using hmap

section Complete
variable {C : Cipher} {key : Bytes} {calls : List Call}

/-- Chunks that were sealed under the same base nonce agree as far as both go. -/
theorem chunks_isPrefix (hC : C.Unforgeable key calls) {baseNonce : Bytes} {ps qs : List Bytes}
    (hp : ∀ c ∈ chunks baseNonce 0 ps, c ∈ calls.flatMap Call.chunks)
    (hq : ∀ c ∈ chunks baseNonce 0 qs, c ∈ calls.flatMap Call.chunks) :
    chunks baseNonce 0 ps <+: chunks baseNonce 0 qs ∨
      chunks baseNonce 0 qs <+: chunks baseNonce 0 ps := by
  apply isPrefix_or_isPrefix
  · intro j a b ha hb
    rw [fst_chunks ha, fst_chunks hb]
  · intro a ha b hb hab
    exact List.inj_on_of_nodup_map hC.nonce_once (hp a ha) (hq b hb) hab

/-- Of two chunk lists that continue one another, those of the same written length are equal. -/
theorem eq_of_isPrefix {cs ds : List (Bytes × Bytes)} (h : cs <+: ds)
    (hlen : (cs.flatMap (writeChunk C key)).length = (ds.flatMap (writeChunk C key)).length) :
    cs = ds := by
  obtain ⟨rest, rfl⟩ := h
  have hrest := length_flatMap_writeChunk C key rest
  rw [List.flatMap_append, List.length_append] at hlen
  obtain rfl : rest = [] := List.length_eq_zero_iff.mp (by omega)
  simp

theorem length_header {baseNonce : Bytes} (h : baseNonce.length = nonceSize) (size : ℕ) :
    (header baseNonce size).length = 24 := by
  simp only [header, List.length_append, length_le32, h]
  decide

theorem take_header {baseNonce : Bytes} (h : baseNonce.length = nonceSize) (size : ℕ) (r : Bytes) :
    (header baseNonce size ++ r).take 24 = header baseNonce size :=
  List.take_left' (length_header h size)

theorem header_baseNonce {n m : Bytes} {a b : ℕ} (h : header n a = header m b) : n = m := by
  unfold header at h
  exact List.append_cancel_left (List.append_inj_left' h rfl)

/-- A file is accepted as a whole archive exactly if a call wrote a file with its header and its
length: neither is checked against the sealed chunks. -/
theorem accepted_complete_iff (hC : C.Unforgeable key calls) {file w : Bytes}
    (h : decryptFile C key file = ⟨some w, none⟩) :
    (∃ call ∈ calls, call.output C key = .ok file ∧ w = call.reads.flatten) ↔
      ∃ call ∈ calls, ∃ out, call.output C key = .ok out ∧ out.take 24 = file.take 24 ∧
        out.length = file.length := by
  constructor
  · rintro ⟨call, hcall, hout, -⟩
    exact ⟨call, hcall, file, hout, rfl, rfl⟩
  · rintro ⟨call, hcall, out, hout, htake, hlen⟩
    obtain ⟨hkey, baseNonce, size, ps, hnonce, rfl, rfl, hps⟩ := decryptFile_sealed hC h
    rw [Call.output, encryptToTemp, if_neg (not_not.mpr hkey), encrypted] at hout
    obtain rfl := Except.ok.inj hout
    rw [take_header call.length_baseNonce, take_header hnonce] at htake
    obtain rfl := header_baseNonce htake
    rw [htake, List.length_append, List.length_append, Nat.add_left_cancel_iff] at hlen
    have hcalls : ∀ c ∈ call.chunks, c ∈ calls.flatMap Call.chunks := fun c hc =>
      List.mem_flatMap.mpr ⟨call, hcall, hc⟩
    have hchunks : chunks call.baseNonce 0 call.reads = chunks call.baseNonce 0 ps := by
      rcases chunks_isPrefix hC hcalls hps with hpre | hpre
      · exact eq_of_isPrefix hpre hlen
      · exact (eq_of_isPrefix hpre hlen.symm).symm
    refine ⟨call, hcall, ?_, ?_⟩
    · rw [Call.output, encryptToTemp, if_neg (not_not.mpr hkey), encrypted, htake, hchunks]
    · rw [← map_snd_chunks call.baseNonce 0 ps, ← hchunks, map_snd_chunks]

end Complete

theorem chunks_congr {n m : Bytes} (h : ∀ i, chunkNonce n i = chunkNonce m i) (i : ℕ)
    (reads : List Bytes) : chunks n i reads = chunks m i reads := by
  induction reads generalizing i with
  | nil => rfl
  | cons buffer rest ih => simp only [chunks, h, ih]

/-- The call that sealed a chunk under the nonce of an index has that many chunks, under the
same nonces. -/
theorem exists_call_of_sealed {calls : List Call} {baseNonce : Bytes} {c : Bytes × Bytes} {i : ℕ}
    (hnonce : baseNonce.length = nonceSize) (hi : i < 2 ^ 32)
    (hc : c ∈ calls.flatMap Call.chunks) (hfst : c.1 = chunkNonce baseNonce i) :
    ∃ call ∈ calls, i < call.chunks.length ∧
      ∀ k, chunkNonce baseNonce k = chunkNonce call.baseNonce k := by
  obtain ⟨call, hcall, hmem⟩ := List.mem_flatMap.mp hc
  obtain ⟨j, hj, hget⟩ := List.getElem_of_mem hmem
  have hsame : chunkNonce baseNonce i = chunkNonce call.baseNonce (0 + j) :=
    hfst.symm.trans (fst_chunks (List.getElem?_eq_some_iff.mpr ⟨hj, hget⟩))
  obtain ⟨hstart, hindex⟩ := List.append_inj hsame (by
    simp [List.length_take, hnonce, call.length_baseNonce])
  have hle : i ≤ j := by
    by_contra hlt
    have := le32_inj hi (by omega) hindex
    omega
  refine ⟨call, hcall, Nat.lt_of_le_of_lt hle hj, fun k => ?_⟩
  rw [chunkNonce, chunkNonce, hstart]

/-- Chunks that are moved, repeated or left out before the end are refused: within the range of
the counter the chunks of an accepted file are the first ones of a call, in their order. -/
theorem accepted_leading {C : Cipher} {key : Bytes} {calls : List Call}
    (hC : C.Unforgeable key calls) {file w : Bytes}
    (h : decryptFile C key file = ⟨some w, none⟩) :
    ∃ baseNonce size cs, file = header baseNonce size ++ cs.flatMap (writeChunk C key) ∧
      w = (cs.map Prod.snd).flatten ∧
      (cs.length ≤ 2 ^ 32 → cs = [] ∨ ∃ call ∈ calls, cs <+: call.chunks) := by
  obtain ⟨-, baseNonce, size, ps, hnonce, rfl, rfl, hps⟩ := decryptFile_sealed hC h
  refine ⟨baseNonce, size, chunks baseNonce 0 ps, rfl, (map_snd_chunks _ _ _).symm, ?_⟩
  intro hcount
  rcases List.eq_nil_or_concat (chunks baseNonce 0 ps) with hnil | ⟨front, last, hcs⟩
  · exact Or.inl hnil
  · have hlength : (chunks baseNonce 0 ps).length = front.length + 1 := by
      rw [hcs, List.length_concat]
    have hlast : (chunks baseNonce 0 ps)[front.length]? = some last := by simp [hcs]
    -- the call that sealed the last chunk goes at least as far as the file
    obtain ⟨call, hcall, hlt, hnonces⟩ := exists_call_of_sealed hnonce (by omega)
      (hps last (List.mem_of_getElem? hlast)) (fst_chunks hlast)
    have hchunks : chunks baseNonce 0 call.reads = call.chunks :=
      chunks_congr (by simpa using hnonces) 0 call.reads
    have hcalls : ∀ c ∈ chunks baseNonce 0 call.reads, c ∈ calls.flatMap Call.chunks := by
      intro c hc
      exact List.mem_flatMap.mpr ⟨call, hcall, hchunks ▸ hc⟩
    refine Or.inr ⟨call, hcall, ?_⟩
    rw [← hchunks]
    rcases chunks_isPrefix hC hps hcalls with hpre | hpre
    · exact hpre
    · have hlen : (chunks baseNonce 0 ps).length ≤ (chunks baseNonce 0 call.reads).length := by
        rw [hchunks]
        omega
      rw [hpre.eq_of_length_le hlen]

/-- The ideal cipher of a history: sealing appends an empty tag, and opening looks the sealed
chunk up. -/
def idealCipher (calls : List Call) : Cipher where
  sealChunk := fun _ _ chunk => chunk ++ List.replicate overhead 0
  openChunk := fun _ nonce sealed =>
    ((calls.flatMap Call.chunks).find? fun c =>
      c.1 = nonce ∧ c.2 ++ List.replicate overhead 0 = sealed).map Prod.snd

theorem idealCipher_unforgeable {calls : List Call} (key : Bytes)
    (h : ((calls.flatMap Call.chunks).map Prod.fst).Nodup) :
    (idealCipher calls).Unforgeable key calls where
  length_seal := fun _ chunk => by simp [idealCipher]
  nonce_once := h
  open_seal := by
    intro c hc
    simp only [idealCipher, Option.map_eq_some_iff]
    cases hfind : (calls.flatMap Call.chunks).find? fun d =>
        d.1 = c.1 ∧ d.2 ++ List.replicate overhead 0 = c.2 ++ List.replicate overhead 0 with
    | none => exact absurd (List.find?_eq_none.mp hfind c hc) (by simp)
    | some d =>
        have hd := List.find?_some hfind
        simp only [decide_eq_true_eq, List.append_cancel_right_eq] at hd
        exact ⟨d, rfl, hd.2⟩
  sealed_of_open := by
    intro nonce sealed opened hopen
    obtain ⟨c, hfind, rfl⟩ := Option.map_eq_some_iff.mp hopen
    have hc := List.find?_some hfind
    simp only [decide_eq_true_eq] at hc
    refine ⟨c.2, ?_, hc.2.symm⟩
    rw [← hc.1]
    exact List.mem_of_find?_eq_some hfind

/-- A call that reads a source of two bytes in two pieces. -/
def twoChunks : Call where
  baseNonce := [1, 2, 3, 4, 5, 6, 7, 8, 9, 10, 11, 12]
  reads := [[65], [66]]
  length_baseNonce := rfl
  length_le := by decide

/-- The file of the call. -/
def twoChunksFile : Bytes :=
  header twoChunks.baseNonce chunkSize ++
    twoChunks.chunks.flatMap (writeChunk (idealCipher [twoChunks]) (List.replicate 32 7))

theorem accepted_complete_twoChunks :
    (∃ call ∈ [twoChunks], call.output (idealCipher [twoChunks]) (List.replicate 32 7) =
        .ok twoChunksFile ∧ [65, 66] = call.reads.flatten) ↔
      ∃ call ∈ [twoChunks], ∃ out,
        call.output (idealCipher [twoChunks]) (List.replicate 32 7) = .ok out ∧
          out.take 24 = twoChunksFile.take 24 ∧ out.length = twoChunksFile.length :=
  accepted_complete_iff (idealCipher_unforgeable _ (by decide)) (by decide)

/-- The file without its second chunk is accepted, and is no output of a call. -/
theorem truncated_accepted :
    (idealCipher [twoChunks]).Unforgeable (List.replicate 32 7) [twoChunks] ∧
      twoChunks.output (idealCipher [twoChunks]) (List.replicate 32 7) = .ok twoChunksFile ∧
      decryptFile (idealCipher [twoChunks]) (List.replicate 32 7) (twoChunksFile.take 45) =
        ⟨some [65], none⟩ ∧
      ¬ ∃ call ∈ [twoChunks], call.output (idealCipher [twoChunks]) (List.replicate 32 7) =
        .ok (twoChunksFile.take 45) := by
  have hout : twoChunks.output (idealCipher [twoChunks]) (List.replicate 32 7) =
      .ok twoChunksFile := by
    rw [Call.output, encryptToTemp, if_neg (by decide), encrypted, twoChunksFile, Call.chunks]
  refine ⟨idealCipher_unforgeable _ (by decide), hout, by decide, ?_⟩
  rintro ⟨call, hcall, hcut⟩
  obtain rfl := List.mem_singleton.mp hcall
  have hsame : twoChunksFile = twoChunksFile.take 45 := Except.ok.inj (hout.symm.trans hcut)
  exact absurd hsame (by decide)

theorem accepted_leading_truncated :
    ∃ baseNonce size cs, twoChunksFile.take 45 = header baseNonce size ++
        cs.flatMap (writeChunk (idealCipher [twoChunks]) (List.replicate 32 7)) ∧
      [65] = (cs.map Prod.snd).flatten ∧
      (cs.length ≤ 2 ^ 32 → cs = [] ∨ ∃ call ∈ [twoChunks], cs <+: call.chunks) :=
  accepted_leading (idealCipher_unforgeable _ (by decide)) (by decide)

end PmxAgents.Backup.Sync
