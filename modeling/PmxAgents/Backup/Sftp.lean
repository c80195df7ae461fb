import PmxAgents.Backup.Encryption
import PmxAgents.Lib.PartialCopy
import PmxAgents.Lib.Runs
import PmxAgents.Lib.Text

/-!
# Archives over SFTP

A push writes an archive to a path on a server, a pull writes a file of a server to a local
path. With `resume` the transfer goes on from the size of what is there already; the only thing
that is compared are the sizes. An attempt can end with an error at every step and after every
byte of the copy, and what was written stays.

## Implementation notes

Of the target only the file at its path is kept: nothing, or a content. `Fates` says how the
operations of an attempt end; a source that is not there is one that cannot be opened. The
packets of a copy are written one after the other, so that an interrupted copy has written a
first part of its data.
-/

namespace PmxAgents.Backup.Sftp

open Lib Lib.Cbor Lib.Checks Lib.PartialCopy Lib.Runs Lib.Text

/-! ## The connection -/

structure ConnParams where
  host : String
  port : Int
  username : String
  password : String
  privateKeyPEM : String
  privateKeyPassphrase : String
  knownHostPublicKey : String
  insecureHostKey : Bool

inductive ConnectError where
  | hostAndUsernameRequired
  | parsePrivateKey
  | parseEncryptedPrivateKey
  | authMethodRequired
  | knownHostKeyRequired
  | parseKnownHostKey
  | dial (host : String) (port : Int)
  | handshake
  | clientInit
  deriving DecidableEq

/-- What the SSH library reads, and how the server takes the connection. A host key other than the
known one fails the handshake. -/
structure Ssh where
  parsePrivateKey : String → Bool
  parsePrivateKeyWithPassphrase : String → String → Bool
  parseAuthorizedKey : String → Bool
  dial : Bool
  handshake : Bool
  clientInit : Bool

def blank (s : String) : Bool := trimSpace s = ""

def parseSigner (S : Ssh) (privateKeyPEM passphrase : String) : Except ConnectError Unit :=
  if blank passphrase then
    if S.parsePrivateKey privateKeyPEM then .ok () else .error .parsePrivateKey
  else if S.parsePrivateKeyWithPassphrase privateKeyPEM passphrase then .ok ()
  else .error .parseEncryptedPrivateKey

def hostKeyCallback (S : Ssh) (knownHostPublicKey : String) (insecure : Bool) :
    Except ConnectError Unit :=
  if insecure then .ok ()
  else if blank knownHostPublicKey then .error .knownHostKeyRequired
  else if S.parseAuthorizedKey (trimSpace knownHostPublicKey) then .ok ()
  else .error .parseKnownHostKey

def connect (S : Ssh) (p : ConnParams) : Except ConnectError Unit := do
  if blank p.host || blank p.username then throw .hostAndUsernameRequired
  let port := if p.port = 0 then 22 else p.port
  if !blank p.privateKeyPEM then parseSigner S p.privateKeyPEM p.privateKeyPassphrase
  if blank p.password && blank p.privateKeyPEM then throw .authMethodRequired
  hostKeyCallback S p.knownHostPublicKey p.insecureHostKey
  if !S.dial then throw (.dial p.host port)
  if !S.handshake then throw .handshake
  if !S.clientInit then throw .clientInit

/-! ## Transfers -/

structure Params where
  localPath : String
  remotePath : String
  conn : ConnParams
  resume : Bool

structure Result where
  bytesTransferred : ℕ
  offset : ℕ
  deriving DecidableEq

inductive ResumeError where
  | negative
  | larger (partialSize sourceSize : Int)
  deriving DecidableEq

inductive TransferError where
  | pathsRequired
  | connect (e : ConnectError)
  | openSource
  | statSource
  | makeDir
  | resume (e : ResumeError)
  | seekSource
  | openTarget
  | seekTarget
  | copy
  deriving DecidableEq

/-- How the operations of a transfer end; the copy after how many bytes, if with an error. -/
structure Fates where
  ssh : Ssh
  openSource : Bool
  statSource : Bool
  makeDir : Bool
  statTarget : Bool
  seekSource : Bool
  openTarget : Bool
  seekTarget : Bool
  copy : Option ℕ

def resumeOffset (sourceSize partialSize : Int) : Except ResumeError ℕ :=
  if partialSize < 0 then .error .negative
  else if sourceSize < partialSize then .error (.larger partialSize sourceSize)
  else .ok partialSize.toNat

/-- The paths are given and the server takes the connection. -/
def start (f : Fates) (p : Params) : Except TransferError Unit :=
  if blank p.localPath || blank p.remotePath then .error .pathsRequired
  else (connect f.ssh p.conn).mapError .connect

/-- Where a transfer starts: behind what is there, if that is asked for and can be seen. -/
def startOffset (f : Fates) (p : Params) (source : Bytes) (target : Option Bytes) :
    Except TransferError ℕ :=
  match target with
  | none => .ok 0
  | some content =>
      if p.resume && f.statTarget then
        (resumeOffset source.length content.length).mapError .resume
      else .ok 0

/-- The copy from both offsets on, and the file it leaves. -/
def copyFrom (f : Fates) (opened : Bytes) (offset : ℕ) (source : Bytes) :
    Except TransferError Result × Option Bytes :=
  match f.copy with
  | none => (.ok ⟨(source.drop offset).length, offset⟩, writeAt opened offset (source.drop offset))
  | some n => (.error .copy, writeAt opened offset ((source.drop offset).take n))

/-- The steps of a push before the remote file is opened, and the offset. -/
def pushStart (f : Fates) (p : Params) (source : Bytes) (target : Option Bytes) :
    Except TransferError ℕ := do
  start f p
  if !f.openSource then throw .openSource
  else if !f.statSource then throw .statSource
  else if !f.makeDir then throw .makeDir
  else
    let offset ← startOffset f p source target
    if 0 < offset && !f.seekSource then throw .seekSource
    else if !f.openTarget then throw .openTarget
    else return offset

/-- The remote file is truncated only without `resume`. -/
def push (f : Fates) (p : Params) (source : Bytes) (target : Option Bytes) :
    Except TransferError Result × Option Bytes :=
  match pushStart f p source target with
  | .error e => (.error e, target)
  | .ok offset =>
      let opened := if p.resume then target.getD [] else []
      if 0 < offset && !f.seekTarget then (.error .seekTarget, some opened)
      else copyFrom f opened offset source

/-- The steps of a pull before the local file is opened, and the offset. -/
def pullStart (f : Fates) (p : Params) (source : Bytes) (target : Option Bytes) :
    Except TransferError ℕ := do
  start f p
  if !f.makeDir then throw .makeDir
  else if !f.statSource then throw .statSource
  else
    let offset ← startOffset f p source target
    if !f.openTarget then throw .openTarget
    else return offset

/-- The local file is created anew unless it is resumed. -/
def pull (f : Fates) (p : Params) (source : Bytes) (target : Option Bytes) :
    Except TransferError Result × Option Bytes :=
  match pullStart f p source target with
  | .error e => (.error e, target)
  | .ok offset =>
      let opened := if 0 < offset then target.getD [] else []
      if 0 < offset && !f.seekTarget then (.error .seekTarget, some opened)
      else if !f.openSource then (.error .openSource, some opened)
      else if 0 < offset && !f.seekSource then (.error .seekSource, some opened)
      else copyFrom f opened offset source

/-! ## Attempts -/

inductive Direction where
  | push
  | pull
  deriving DecidableEq

/-- The file of an attempt: as it is, or as the runner encrypts it for this attempt, under a random
nonce and in the pieces it was read in. -/
inductive Body where
  | plain (content : Bytes)
  | encrypted (key baseNonce : Bytes) (reads : List Bytes)

/-- The content that an attempt transfers. -/
def Body.bytes (C : Sync.Cipher) : Body → Except Sync.EncryptError Bytes
  | .plain content => .ok content
  | .encrypted key baseNonce reads => Sync.encryptToTemp C key baseNonce reads

structure Attempt where
  params : Params
  body : Body
  fates : Fates

inductive AttemptError where
  | encrypt (e : Sync.EncryptError)
  | transfer (e : TransferError)
  deriving DecidableEq

def transfer : Direction → Fates → Params → Bytes → Option Bytes →
    Except TransferError Result × Option Bytes
  | .push => push
  | .pull => pull

/-- An attempt and the target it leaves. -/
def attempt (C : Sync.Cipher) (d : Direction) (a : Attempt) (target : Option Bytes) :
    Except AttemptError Result × Option Bytes :=
  match a.body.bytes C with
  | .error e => (.error (.encrypt e), target)
  | .ok source =>
      let done := transfer d a.fates a.params source target
      (done.1.mapError .transfer, done.2)

/-- One attempt of a history on a target. -/
def attemptStep (C : Sync.Cipher) (d : Direction) (target : Option Bytes) (a : Attempt) :
    Option (Option Bytes) :=
  some (attempt C d a target).2

/-- If the attempt returns success, the target is its source. -/
def Faithful (C : Sync.Cipher) (d : Direction) (target : Option Bytes) (a : Attempt) : Prop :=
  ∀ source, a.body.bytes C = .ok source → ∀ result, (attempt C d a target).1 = .ok result →
    (attempt C d a target).2 = some source

/-- Nothing stops the transfer; the seeks count only where there is an offset. -/
def Clear (f : Fates) (p : Params) : Prop :=
  start f p = .ok () ∧ f.openSource ∧ f.statSource ∧ f.makeDir ∧ f.openTarget ∧ f.copy = none

/-- What is there can be completed: it is a first part of the source, and if the push cannot see
it, it is not longer than the source. -/
def Fits (C : Sync.Cipher) (d : Direction) (target : Option Bytes) (a : Attempt) : Prop :=
  ∀ source, a.body.bytes C = .ok source →
    ∀ content, target = some content → a.params.resume → Clear a.fates a.params →
    (a.fates.statTarget → a.fates.seekSource → a.fates.seekTarget →
      content.length ≤ source.length → content <+: source) ∧
    (d = .push → a.fates.statTarget = false → content.length ≤ source.length)

/-! ## One attempt -/

section Attempt
variable {f : Fates} {p : Params} {source content : Bytes} {target : Option Bytes} {k : ℕ}
  {r : Result}

theorem startOffset_none : startOffset f p source none = .ok 0 := rfl

/-- A transfer that sees a file starts behind it. -/
theorem startOffset_of_sees (hresume : p.resume) (hstat : f.statTarget) :
    startOffset f p source (some content) = .ok k ↔
      content.length ≤ source.length ∧ k = content.length := by
  have hpos : ¬ ((content.length : Int) < 0) := by omega
  rw [startOffset, hresume, hstat, Bool.and_self, if_pos rfl, resumeOffset, if_neg hpos]
  split_ifs with hlarger
  · simp only [Except.mapError, reduceCtorEq, false_iff, not_and]
    omega
  · simp only [Except.mapError, Int.toNat_natCast, Except.ok.injEq]
    omega

/-- Every other transfer starts at the beginning. -/
theorem startOffset_of_blind (hblind : ¬ (p.resume ∧ f.statTarget)) :
    startOffset f p source target = .ok 0 := by
  have hskip : (p.resume && f.statTarget) = false := by simpa using hblind
  cases target with
  | none => rfl
  | some content => rw [startOffset, hskip, if_neg Bool.false_ne_true]

theorem pushStart_eq_ok : pushStart f p source target = .ok k ↔
    start f p = .ok () ∧ f.openSource ∧ f.statSource ∧ f.makeDir ∧
      startOffset f p source target = .ok k ∧ (0 < k → f.seekSource) ∧ f.openTarget := by
  simp only [pushStart, bind_eq_ok, ite_throw_eq_ok, pure, Except.pure, Except.ok.injEq,
    Bool.and_eq_true, Bool.not_eq_true', not_and, Bool.not_eq_false, decide_eq_true_eq]
  constructor
  · rintro ⟨_, hstart, hopen, hstat, hdir, _, hoff, hseek, htarget, rfl⟩
    exact ⟨hstart, hopen, hstat, hdir, hoff, hseek, htarget⟩
  · rintro ⟨hstart, hopen, hstat, hdir, hoff, hseek, htarget⟩
    exact ⟨(), hstart, hopen, hstat, hdir, k, hoff, hseek, htarget, rfl⟩

theorem pullStart_eq_ok : pullStart f p source target = .ok k ↔
    start f p = .ok () ∧ f.makeDir ∧ f.statSource ∧ startOffset f p source target = .ok k ∧
      f.openTarget := by
  simp only [pullStart, bind_eq_ok, ite_throw_eq_ok, pure, Except.pure, Except.ok.injEq,
    Bool.not_eq_true', Bool.not_eq_false]
  constructor
  · rintro ⟨_, hstart, hdir, hstat, _, hoff, htarget, rfl⟩
    exact ⟨hstart, hdir, hstat, hoff, htarget⟩
  · rintro ⟨hstart, hdir, hstat, hoff, htarget⟩
    exact ⟨(), hstart, hdir, hstat, k, hoff, htarget, rfl⟩

theorem copyFrom_eq_ok {opened : Bytes} (h : (copyFrom f opened k source).1 = .ok r) :
    f.copy = none ∧ (copyFrom f opened k source).2 = writeAt opened k (source.drop k) := by
  unfold copyFrom at h ⊢
  cases hcopy : f.copy with
  | none => exact ⟨rfl, rfl⟩
  | some n =>
      rw [hcopy] at h
      cases h

theorem copyFrom_of_none {opened : Bytes} (h : f.copy = none) :
    copyFrom f opened k source =
      (.ok ⟨(source.drop k).length, k⟩, some (writeAt opened k (source.drop k))) := by
  rw [copyFrom, h]

theorem seekFails_eq_false {seek : Bool} (h : ¬ (decide (0 < k) && !seek) = true) (hk : 0 < k) :
    seek := by
  simpa [hk] using h

/-- A push that returns success was not stopped, and has completed what it opened. -/
theorem push_ok (h : (push f p source target).1 = .ok r) :
    Clear f p ∧ ∃ k, startOffset f p source target = .ok k ∧
      (0 < k → f.seekSource ∧ f.seekTarget) ∧
      (push f p source target).2 =
        writeAt (if p.resume then target.getD [] else []) k (source.drop k) := by
  unfold push at h ⊢
  cases hstart : pushStart f p source target with
  | error e => rw [hstart] at h; cases h
  | ok k =>
      obtain ⟨hpre, hopen, hstat, hdir, hoff, hsource, htarget⟩ := pushStart_eq_ok.mp hstart
      simp only [hstart] at h ⊢
      obtain ⟨hstop, h⟩ := ite_error_fst_eq_ok.mp h
      obtain ⟨hcopy, hcontent⟩ := copyFrom_eq_ok h
      rw [if_neg hstop]
      exact ⟨⟨hpre, hopen, hstat, hdir, htarget, hcopy⟩, k, hoff,
        fun hk => ⟨hsource hk, seekFails_eq_false hstop hk⟩, hcontent⟩

theorem push_of_clear (hclear : Clear f p) (hoff : startOffset f p source target = .ok k)
    (hseek : 0 < k → f.seekSource ∧ f.seekTarget) :
    push f p source target = (.ok ⟨(source.drop k).length, k⟩,
      some (writeAt (if p.resume then target.getD [] else []) k (source.drop k))) := by
  obtain ⟨hpre, hopen, hstat, hdir, htarget, hcopy⟩ := hclear
  have hstart : pushStart f p source target = .ok k :=
    pushStart_eq_ok.mpr ⟨hpre, hopen, hstat, hdir, hoff, fun hk => (hseek hk).1, htarget⟩
  have hgo : ¬ (decide (0 < k) && !f.seekTarget) = true := by
    simpa using fun hk => (hseek hk).2
  rw [push, hstart]
  simp only [if_neg hgo]
  exact copyFrom_of_none hcopy

/-- A pull that returns success was not stopped, and has completed what it opened. -/
theorem pull_ok (h : (pull f p source target).1 = .ok r) :
    Clear f p ∧ ∃ k, startOffset f p source target = .ok k ∧
      (0 < k → f.seekSource ∧ f.seekTarget) ∧
      (pull f p source target).2 =
        writeAt (if 0 < k then target.getD [] else []) k (source.drop k) := by
  unfold pull at h ⊢
  cases hstart : pullStart f p source target with
  | error e => rw [hstart] at h; cases h
  | ok k =>
      obtain ⟨hpre, hdir, hstat, hoff, htarget⟩ := pullStart_eq_ok.mp hstart
      simp only [hstart] at h ⊢
      obtain ⟨hstop, h⟩ := ite_error_fst_eq_ok.mp h
      obtain ⟨hopen, h⟩ := ite_error_fst_eq_ok.mp h
      obtain ⟨hseek, h⟩ := ite_error_fst_eq_ok.mp h
      obtain ⟨hcopy, hcontent⟩ := copyFrom_eq_ok h
      rw [if_neg hstop, if_neg hopen, if_neg hseek]
      exact ⟨⟨hpre, by simpa using hopen, hstat, hdir, htarget, hcopy⟩, k, hoff,
        fun hk => ⟨seekFails_eq_false hseek hk, seekFails_eq_false hstop hk⟩, hcontent⟩

theorem pull_of_clear (hclear : Clear f p) (hoff : startOffset f p source target = .ok k)
    (hseek : 0 < k → f.seekSource ∧ f.seekTarget) :
    pull f p source target = (.ok ⟨(source.drop k).length, k⟩,
      some (writeAt (if 0 < k then target.getD [] else []) k (source.drop k))) := by
  obtain ⟨hpre, hopen, hstat, hdir, htarget, hcopy⟩ := hclear
  have hstart : pullStart f p source target = .ok k :=
    pullStart_eq_ok.mpr ⟨hpre, hdir, hstat, hoff, htarget⟩
  have hgo : ¬ (decide (0 < k) && !f.seekTarget) = true := by
    simpa using fun hk => (hseek hk).2
  have hgo' : ¬ (decide (0 < k) && !f.seekSource) = true := by
    simpa using fun hk => (hseek hk).1
  have hnot : ¬ (!f.openSource) = true := by simp [hopen]
  rw [pull, hstart]
  simp only [if_neg hgo, if_neg hgo', if_neg hnot]
  exact copyFrom_of_none hcopy

/-- A push is faithful exactly if what it resumes is a first part of its source, or is covered by
the source if it cannot be seen. -/
theorem push_faithful_iff_fits :
    (∀ r, (push f p source target).1 = .ok r → (push f p source target).2 = some source) ↔
      ∀ content, target = some content → p.resume → Clear f p →
        (f.statTarget → f.seekSource → f.seekTarget → content.length ≤ source.length →
          content <+: source) ∧
        (f.statTarget = false → content.length ≤ source.length) := by
  constructor
  · rintro h content rfl hresume hclear
    constructor
    · intro hstat hsource htarget hle
      have hpush := push_of_clear hclear
        ((startOffset_of_sees hresume hstat).mpr ⟨hle, rfl⟩) fun _ => ⟨hsource, htarget⟩
      have hcontent := h _ (congrArg Prod.fst hpush)
      rw [hpush, if_pos hresume, Option.getD_some, writeAt_length] at hcontent
      exact append_drop_eq_iff.mp (Option.some.inj hcontent)
    · intro hstat
      have hoff : startOffset f p source (some content) = .ok 0 :=
        startOffset_of_blind (by simp [hstat])
      have hpush := push_of_clear hclear hoff fun hk => absurd hk (Nat.lt_irrefl 0)
      have hcontent := h _ (congrArg Prod.fst hpush)
      rw [hpush, if_pos hresume, Option.getD_some, List.drop_zero, writeAt_zero] at hcontent
      exact append_drop_length_eq_iff.mp (Option.some.inj hcontent)
  · intro h r hr
    obtain ⟨hclear, k, hoff, hseek, hcontent⟩ := push_ok hr
    rw [hcontent, Option.some.injEq]
    cases target with
    | none =>
        obtain rfl : 0 = k := Except.ok.inj (startOffset_none.symm.trans hoff)
        rw [Option.getD_none, ite_self, List.drop_zero, writeAt_nil]
    | some content =>
        by_cases hresume : p.resume
        · rw [if_pos hresume, Option.getD_some]
          by_cases hstat : f.statTarget
          · obtain ⟨hle, rfl⟩ := (startOffset_of_sees hresume hstat).mp hoff
            rw [writeAt_length, append_drop_eq_iff]
            rcases Nat.eq_zero_or_pos content.length with hzero | hpos
            · rw [List.eq_nil_of_length_eq_zero hzero]
              exact List.nil_prefix
            · exact (h content rfl hresume hclear).1 hstat (hseek hpos).1 (hseek hpos).2 hle
          · obtain rfl : 0 = k :=
              Except.ok.inj ((startOffset_of_blind fun hsees => hstat hsees.2).symm.trans hoff)
            rw [List.drop_zero, writeAt_zero, append_drop_length_eq_iff]
            exact (h content rfl hresume hclear).2 (by simpa using hstat)
        · obtain rfl : 0 = k :=
            Except.ok.inj ((startOffset_of_blind fun hsees => hresume hsees.1).symm.trans hoff)
          rw [if_neg hresume, List.drop_zero, writeAt_nil]

/-- A pull is faithful exactly if what it resumes is a first part of its source. -/
theorem pull_faithful_iff_fits :
    (∀ r, (pull f p source target).1 = .ok r → (pull f p source target).2 = some source) ↔
      ∀ content, target = some content → p.resume → Clear f p →
        f.statTarget → f.seekSource → f.seekTarget → content.length ≤ source.length →
          content <+: source := by
  constructor
  · rintro h content rfl hresume hclear hstat hsource htarget hle
    rcases Nat.eq_zero_or_pos content.length with hzero | hpos
    · rw [List.eq_nil_of_length_eq_zero hzero]
      exact List.nil_prefix
    · have hpull := pull_of_clear hclear
        ((startOffset_of_sees hresume hstat).mpr ⟨hle, rfl⟩) fun _ => ⟨hsource, htarget⟩
      have hcontent := h _ (congrArg Prod.fst hpull)
      rw [hpull, if_pos hpos, Option.getD_some, writeAt_length] at hcontent
      exact append_drop_eq_iff.mp (Option.some.inj hcontent)
  · intro h r hr
    obtain ⟨hclear, k, hoff, hseek, hcontent⟩ := pull_ok hr
    rw [hcontent, Option.some.injEq]
    rcases Nat.eq_zero_or_pos k with rfl | hpos
    · rw [if_neg (Nat.lt_irrefl 0), List.drop_zero, writeAt_nil]
    · -- an offset is the size of a file that was seen
      by_cases hsees : p.resume ∧ f.statTarget
      · cases target with
        | none => exact absurd (Except.ok.inj (startOffset_none.symm.trans hoff)).symm hpos.ne'
        | some content =>
            obtain ⟨hle, rfl⟩ := (startOffset_of_sees hsees.1 hsees.2).mp hoff
            rw [if_pos hpos, Option.getD_some, writeAt_length, append_drop_eq_iff]
            exact h content rfl hsees.1 hclear hsees.2 (hseek hpos).1 (hseek hpos).2 hle
      · exact absurd (Except.ok.inj ((startOffset_of_blind hsees).symm.trans hoff)).symm hpos.ne'

end Attempt

/-! ## Histories of attempts -/

section History
variable {C : Sync.Cipher} {d : Direction} {target : Option Bytes} {a : Attempt}

theorem attempt_fst_eq_ok {source : Bytes} {r : Result} (h : a.body.bytes C = .ok source) :
    (attempt C d a target).1 = .ok r ↔
      (transfer d a.fates a.params source target).1 = .ok r := by
  rw [attempt, h]
  exact mapError_eq_ok

theorem attempt_snd {source : Bytes} (h : a.body.bytes C = .ok source) :
    (attempt C d a target).2 = (transfer d a.fates a.params source target).2 := by
  rw [attempt, h]

theorem faithful_iff_fits : Faithful C d target a ↔ Fits C d target a := by
  cases hbytes : a.body.bytes C with
  | error e => simp [Faithful, Fits, hbytes]
  | ok source =>
      simp only [Faithful, Fits, hbytes, Except.ok.injEq, forall_eq', attempt_fst_eq_ok hbytes,
        attempt_snd hbytes]
      cases d with
      | push =>
          simp only [transfer, forall_const]
          exact push_faithful_iff_fits
      | pull =>
          simp only [transfer, reduceCtorEq, false_implies, and_true]
          exact pull_faithful_iff_fits

/-- In a history every successful attempt leaves its source exactly if at the start of every attempt
that is not stopped the target is a first part of the source. -/
theorem transfers_faithful_iff (C : Sync.Cipher) (d : Direction) (target : Option Bytes)
    (history : List Attempt) :
    Admits (attemptStep C d) (Faithful C d) target history ↔
      Admits (attemptStep C d) (Fits C d) target history :=
  admits_congr fun _ _ => faithful_iff_fits

end History

def reachable : Ssh := ⟨fun _ => true, fun _ _ => true, fun _ => true, true, true, true⟩

def account : ConnParams where
  host := "nas"
  port := 0
  username := "backup"
  password := "secret"
  privateKeyPEM := ""
  privateKeyPassphrase := ""
  knownHostPublicKey := ""
  insecureHostKey := true

/-- A resumed transfer of a file in which only the copy may fail. -/
def resuming (content : Bytes) (copy : Option ℕ) : Attempt where
  params := ⟨"/dump/a.vma", "/a.vma", account, true⟩
  body := .plain content
  fates := ⟨reachable, true, true, true, true, true, true, true, copy⟩

/-- The file is replaced after its first byte was copied: the next attempt succeeds and leaves the
old first byte before the rest of the new file. -/
theorem replaced_source_mixed :
    (resuming [3, 4] none).body.bytes Sync.plainCipher = .ok [3, 4] ∧
      ∀ d : Direction,
        let target := (attempt Sync.plainCipher d (resuming [1, 2] (some 1)) none).2
        (attempt Sync.plainCipher d (resuming [3, 4] none) target).1 = .ok ⟨1, 1⟩ ∧
          (attempt Sync.plainCipher d (resuming [3, 4] none) target).2 = some [1, 4] := by
  refine ⟨rfl, fun d => ?_⟩
  cases d <;> decide

end PmxAgents.Backup.Sftp
