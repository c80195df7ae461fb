import PmxAgents.Lib.LineSplit
import PmxAgents.Shared.KeySet
import PmxAgents.SharedRust.KeySet
import PmxAgents.SharedRust.VerifyAgreement

/-!
# One key set text, read by both agents

The Rust agents keep an expiry as an option, the Go agents as a time, with the zero time
for a key that does not expire. A line that lists the zero time itself is an expired key
to the one and a key without expiry to the other. Both go through the lines alike but
for the scanner of the Go agents, which stops at a line that is too long. Apart from
these two cases they consult the same keys at every instant.

## Implementation notes

The two timestamp parsers are parameters. Each accepts some texts that the other refuses;
on a text that both accept they are taken to mean the same instant, and no leap second,
which Go refuses.
-/

namespace PmxAgents.SharedRust

open Lib Lib.Cbor Lib.Scanner Lib.LineSplit

/-- `parse_from_rfc3339` as a parser of the same kind as `time.Parse`. -/
def Crypto.parseTime (C : Crypto) (text : List Char) : Option DateTime :=
  (C.parseRfc3339 (String.ofList text)).toOption

/-- The two parsers mean the same instant by a text that both accept. -/
def TimesAgree (parseTime : List Char → Option Int) (C : Crypto) : Prop :=
  ∀ text t d, parseTime text = some t → C.parseTime text = some d →
    d.nanos < 10 ^ 9 ∧ d.instant = t

/-- The order of timestamps is that of the instants. -/
theorem DateTime.lt_iff_instant_lt {a b : DateTime} (ha : a.nanos < 10 ^ 9)
    (hb : b.nanos < 10 ^ 9) : a.lt b = true ↔ a.instant < b.instant := by
  simp only [DateTime.lt, decide_eq_true_eq, DateTime.instant, Shared.second]
  omega

namespace KeySet

/-! ## What a text lists -/

/-- The content of a line with a key on it. -/
def keyLine (line : List Char) : Option (List Char) :=
  if content line = [] then none else some (content line)

def keyLines (text : List Char) : List (List Char) := (text.splitOn '\n').filterMap keyLine

/-- The key lines before the first line that is too long for the scanner of the Go agents. -/
def scannedLines (text : List Char) : List (List Char) :=
  ((text.splitOn '\n').takeWhile (Fits Shared.textChars ·)).filterMap keyLine

def unscannedLines (text : List Char) : List (List Char) :=
  ((text.splitOn '\n').dropWhile (Fits Shared.textChars ·)).filterMap keyLine

/-- The not-after time that a key line lists. -/
def listedNotAfter {τ : Type} (parseTime : List Char → Option τ) (line : List Char) : Option τ :=
  match Text.fields line with
  | [_, notAfter] => parseTime notAfter
  | _ => none

/-- A key that is listed with a not-after time is used only at a time before. The key of a line
is the one at the same position. -/
def UsedOnlyBefore {τ E : Type} (parseTime : List Char → Option τ) (lines : List (List Char))
    (keys : List E) (used : E → Bool) (before : τ → Prop) : Prop :=
  ∀ (i : ℕ) (line : List Char) (e : E) (t : τ), lines[i]? = some line → keys[i]? = some e →
    listedNotAfter parseTime line = some t → used e = true → before t

/-- The keys that `Verify` of the Go agents tries, in this order. -/
def goConsulted (keys : Shared.KeySet) (now : Int) : List Bytes :=
  (keys.filter fun k => k.isActive now).map Shared.KeyEntry.pub

/-- The keys that `verify` of the Rust agents tries, in this order. -/
def consulted {C : Crypto} (keys : KeySet C) (now : DateTime) : List C.Key :=
  (keys.filter fun k => k.isActive now).map KeyEntry.key

/-- The promise for one text at one instant: neither agent uses a key from its not-after time on,
and they try the same keys. -/
structure Alike (parseTime : List Char → Option Int) (C : Crypto) (text : String)
    (goKeys : Shared.KeySet) (keys : KeySet C) (now : DateTime) : Prop where
  go : UsedOnlyBefore parseTime (keyLines text.toList) goKeys (fun e => e.isActive now.instant)
    fun t => now.instant < t
  rust : UsedOnlyBefore C.parseTime (keyLines text.toList) keys (fun e => e.isActive now)
    fun t => now.lt t
  same : List.Forall₂ (fun pub key => C.keyFromBytes pub = .ok key)
    (goConsulted goKeys now.instant) (consulted keys now)

/-- No line lists the zero time, unless it is yet to come, and the keys on the lines that the
scanner does not reach have expired. -/
structure Unambiguous (parseTime : List Char → Option Int) (C : Crypto) (text : String)
    (now : DateTime) : Prop where
  zero : ∀ line ∈ scannedLines text.toList,
    listedNotAfter parseTime line = some Shared.zeroTime → now.instant < Shared.zeroTime
  unscanned : ∀ line ∈ unscannedLines text.toList,
    ∃ t, listedNotAfter C.parseTime line = some t ∧ now.lt t = false

/-! ## The lines -/

theorem keyLines_eq_append (text : List Char) :
    keyLines text = scannedLines text ++ unscannedLines text := by
  rw [keyLines, scannedLines, unscannedLines, ← List.filterMap_append,
    List.takeWhile_append_dropWhile]

theorem content_append_cr (line : List Char) : content (line ++ ['\r']) = content line :=
  trim_before_append_right (List.forall_mem_singleton.mpr rfl)

theorem go_content_eq (line : List Char) : Shared.KeySet.content line = content line :=
  trim_before_trim (by decide) line

theorem keyLine_dropCR (line : List Char) :
    keyLine (dropCR Shared.textChars line) = keyLine line := by
  rw [dropCR]
  split_ifs with hlast
  · have hline := List.dropLast_append_getLast? _ hlast
    rw [keyLine, keyLine, ← content_append_cr line.dropLast]
    simp only [Shared.textChars] at hline
    rw [hline]
  · rfl

theorem filterMap_keyLine_scan (text : List Char) :
    (scan Shared.textChars text).tokens.filterMap keyLine = scannedLines text :=
  filterMap_scan Shared.textChars rfl keyLine_dropCR text

theorem filterMap_keyLine_lines (text : List Char) :
    (Text.lines text).filterMap keyLine = keyLines text := by
  refine filterMap_lines rfl (fun line => ?_) text
  rw [keyLine, keyLine, content_append_cr]

/-! ## The entries -/

section Entries
variable {parseTime : List Char → Option Int} {C : Crypto}

/-- What the Go agents read from a key line. -/
def GoEntry (parseTime : List Char → Option Int) (line : List Char) (e : Shared.KeyEntry) : Prop :=
  ∃ field, Hex.decode (String.ofList field) = .ok e.pub ∧
    (Text.fields line = [field] ∧ e.notAfter = Shared.zeroTime ∨
      ∃ notAfter, Text.fields line = [field, notAfter] ∧ parseTime notAfter = some e.notAfter)

/-- What the Rust agents read from a key line. -/
def RustEntry (C : Crypto) (line : List Char) (e : KeyEntry C) : Prop :=
  ∃ field pub, Hex.decode (String.ofList field) = .ok pub ∧ C.keyFromBytes pub = .ok e.key ∧
    (Text.fields line = [field] ∧ e.notAfter = none ∨
      ∃ notAfter t, Text.fields line = [field, notAfter] ∧ C.parseTime notAfter = some t ∧
        e.notAfter = some t)

theorem goEntry_of_parseLine {M : Shared.Messages} {n : ℕ} {line : List Char}
    {e : Shared.KeyEntry} (h : Shared.KeySet.parseLine parseTime M n line = .ok e) :
    GoEntry parseTime line e := by
  rw [Shared.KeySet.parseLine] at h
  split at h
  · rename_i field hfields
    split at h
    · cases h
    · rename_i pub hkey
      obtain rfl := Except.ok.inj h
      exact ⟨field, Hex.decode_of_decodeString (Shared.KeySet.parseKey_ok.mp hkey).1,
        Or.inl ⟨hfields, rfl⟩⟩
  · rename_i field notAfter hfields
    split at h
    · cases h
    · rename_i pub hkey
      split at h
      · cases h
      · rename_i t ht
        obtain rfl := Except.ok.inj h
        exact ⟨field, Hex.decode_of_decodeString (Shared.KeySet.parseKey_ok.mp hkey).1,
          Or.inr ⟨notAfter, hfields, ht⟩⟩
  · cases h

theorem parseKey_ok {n : ℕ} {field : List Char} {key : C.Key} (h : parseKey C n field = .ok key) :
    ∃ pub, Hex.decode (String.ofList field) = .ok pub ∧ C.keyFromBytes pub = .ok key := by
  rw [parseKey] at h
  split at h
  · cases h
  · rename_i pub hpub
    split_ifs at h
    split at h
    · cases h
    · rename_i key' hkey
      obtain rfl := Except.ok.inj h
      exact ⟨pub, hpub, hkey⟩

theorem rustEntry_of_parseLine {n : ℕ} {line : List Char} {e : KeyEntry C}
    (h : parseLine C n line = .ok e) : RustEntry C line e := by
  rw [parseLine] at h
  split at h
  · rename_i field hfields
    obtain ⟨key, hkey, hentry⟩ := Checks.bind_eq_ok.mp h
    obtain rfl := Except.ok.inj hentry
    obtain ⟨pub, hpub, hbytes⟩ := parseKey_ok hkey
    exact ⟨field, pub, hpub, hbytes, Or.inl ⟨hfields, rfl⟩⟩
  · rename_i field notAfter hfields
    obtain ⟨key, hkey, htime⟩ := Checks.bind_eq_ok.mp h
    obtain ⟨pub, hpub, hbytes⟩ := parseKey_ok hkey
    split at htime
    · cases htime
    · rename_i t ht
      obtain rfl := Except.ok.inj htime
      refine ⟨field, pub, hpub, hbytes, Or.inr ⟨notAfter, t, hfields, ?_, rfl⟩⟩
      rw [Crypto.parseTime, ht, Except.toOption]
  · cases h

/-- The entries of the Go agents are those of the key lines of the tokens. -/
theorem forall₂_of_parseLines {M : Shared.Messages} {n : ℕ} {lines : List (List Char)}
    {keys : Shared.KeySet} (h : Shared.KeySet.parseLines parseTime M n lines = .ok keys) :
    List.Forall₂ (GoEntry parseTime) (lines.filterMap keyLine) keys := by
  induction lines generalizing n keys with
  | nil =>
      obtain rfl := Except.ok.inj h
      exact List.Forall₂.nil
  | cons line lines ih =>
      rw [Shared.KeySet.parseLines, go_content_eq] at h
      split_ifs at h with hempty
      · rw [List.filterMap_cons_none (by rw [keyLine, if_pos hempty])]
        exact ih h
      · rw [List.filterMap_cons_some (by rw [keyLine, if_neg hempty])]
        split at h
        · cases h
        · rename_i entry hentry
          split at h
          · cases h
          · rename_i entries hentries
            obtain rfl := Except.ok.inj h
            exact List.Forall₂.cons (goEntry_of_parseLine hentry) (ih hentries)

theorem forall₂_of_parseKeySet {text : List Char} {keys : Shared.KeySet}
    (h : Shared.KeySet.parseKeySet parseTime text = .ok keys) :
    List.Forall₂ (GoEntry parseTime) (scannedLines text) keys := by
  rw [Shared.KeySet.parseKeySet] at h
  split at h
  · cases h
  · rename_i entries hlines
    split_ifs at h
    obtain rfl := Except.ok.inj h
    rw [← filterMap_keyLine_scan]
    exact forall₂_of_parseLines hlines

theorem forall₂_of_parseFrom {n : ℕ} {lines : List (List Char)} {keys : KeySet C}
    (h : parseFrom C n lines = .ok keys) :
    List.Forall₂ (RustEntry C) (lines.filterMap keyLine) keys := by
  induction lines generalizing n keys with
  | nil =>
      obtain rfl := Except.ok.inj h
      exact List.Forall₂.nil
  | cons line lines ih =>
      rw [parseFrom] at h
      split_ifs at h with hempty
      · rw [List.filterMap_cons_none (by rw [keyLine, if_pos hempty])]
        exact ih h
      · rw [List.filterMap_cons_some (by rw [keyLine, if_neg hempty])]
        obtain ⟨entry, hentry, htail⟩ := Checks.bind_eq_ok.mp h
        obtain ⟨entries, hentries, hcons⟩ := Checks.bind_eq_ok.mp htail
        obtain rfl := Except.ok.inj hcons
        exact List.Forall₂.cons (rustEntry_of_parseLine hentry) (ih hentries)

theorem forall₂_of_parse {text : String} {keys : KeySet C} (h : parse C text = .ok keys) :
    List.Forall₂ (RustEntry C) (keyLines text.toList) keys := by
  rw [parse] at h
  split at h
  · cases h
  · cases h
  · rename_i entries _ hlines
    obtain rfl := Except.ok.inj h
    rw [← filterMap_keyLine_lines]
    exact forall₂_of_parseFrom hlines

end Entries

/-! ## The keys that are consulted -/

section Consulted
variable {parseTime : List Char → Option Int} {C : Crypto} {now : DateTime}

/-- One key line, as both agents read it. -/
structure SameEntry (parseTime : List Char → Option Int) (C : Crypto) (line : List Char)
    (g : Shared.KeyEntry) (e : KeyEntry C) : Prop where
  key : C.keyFromBytes g.pub = .ok e.key
  expiry : listedNotAfter parseTime line = none ∧ g.notAfter = Shared.zeroTime ∧ e.notAfter = none ∨
    ∃ t, listedNotAfter parseTime line = some g.notAfter ∧ e.notAfter = some t ∧
      t.nanos < 10 ^ 9 ∧ t.instant = g.notAfter

theorem sameEntry (hagree : TimesAgree parseTime C) {line : List Char} {g : Shared.KeyEntry}
    {e : KeyEntry C} (hg : GoEntry parseTime line g) (he : RustEntry C line e) :
    SameEntry parseTime C line g e := by
  obtain ⟨field, hpub, hg⟩ := hg
  obtain ⟨field', pub, hpub', hkey, he⟩ := he
  have hfield : (Text.fields line).head? = some field ∧ (Text.fields line).head? = some field' := by
    constructor
    · rcases hg with ⟨hfields, -⟩ | ⟨notAfter, hfields, -⟩ <;> rw [hfields] <;> rfl
    · rcases he with ⟨hfields, -⟩ | ⟨notAfter, t, hfields, -⟩ <;> rw [hfields] <;> rfl
  obtain rfl : field = field' := Option.some.inj (hfield.1.symm.trans hfield.2)
  obtain rfl : g.pub = pub := Except.ok.inj (hpub.symm.trans hpub')
  refine ⟨hkey, ?_⟩
  rcases hg with ⟨hfields, hzero⟩ | ⟨notAfter, hfields, htime⟩
  · rcases he with ⟨-, hnone⟩ | ⟨notAfter, t, hfields', -⟩
    · exact Or.inl ⟨by rw [listedNotAfter, hfields], hzero, hnone⟩
    · rw [hfields] at hfields'
      cases hfields'
  · rcases he with ⟨hfields', -⟩ | ⟨notAfter', t, hfields', htime', hsome⟩
    · rw [hfields] at hfields'
      cases hfields'
    · rw [hfields] at hfields'
      obtain rfl : notAfter = notAfter' := by simpa using hfields'
      obtain ⟨hnanos, hinstant⟩ := hagree _ _ _ htime htime'
      exact Or.inr ⟨t, by rw [listedNotAfter, hfields]; exact htime, hsome, hnanos, hinstant⟩

/-- A key is active for both agents, unless its line lists the zero time. -/
theorem SameEntry.isActive_eq {line : List Char} {g : Shared.KeyEntry} {e : KeyEntry C}
    (h : SameEntry parseTime C line g e) (hnow : now.nanos < 10 ^ 9)
    (hzero : listedNotAfter parseTime line = some Shared.zeroTime →
      now.instant < Shared.zeroTime) :
    g.isActive now.instant = e.isActive now := by
  rcases h.expiry with ⟨-, hg, he⟩ | ⟨t, hlisted, he, hnanos, hinstant⟩
  · simp only [Shared.KeyEntry.isActive, hg, KeyEntry.isActive, he, if_true]
  · have hlt : now.lt t = true ↔ now.instant < g.notAfter := by
      rw [← hinstant]
      exact DateTime.lt_iff_instant_lt hnow hnanos
    simp only [Shared.KeyEntry.isActive, KeyEntry.isActive, he]
    rw [Bool.eq_iff_iff, hlt]
    split_ifs with hg
    · rw [hg] at hlisted ⊢
      simp [hzero hlisted]
    · simp

/-- The expiry of a Rust key is the one its line lists. -/
theorem RustEntry.notAfter_eq {line : List Char} {e : KeyEntry C} (h : RustEntry C line e) :
    e.notAfter = listedNotAfter C.parseTime line := by
  obtain ⟨field, pub, -, -, h⟩ := h
  rcases h with ⟨hfields, hnone⟩ | ⟨notAfter, t, hfields, ht, hsome⟩
  · rw [hnone, listedNotAfter, hfields]
  · rw [hsome, listedNotAfter, hfields]
    exact ht.symm

theorem RustEntry.isActive_eq_false_iff {line : List Char} {e : KeyEntry C}
    (h : RustEntry C line e) :
    e.isActive now = false ↔
      ∃ t, listedNotAfter C.parseTime line = some t ∧ now.lt t = false := by
  rw [KeyEntry.isActive, h.notAfter_eq]
  cases listedNotAfter C.parseTime line <;> simp

theorem GoEntry.notAfter_eq {line : List Char} {g : Shared.KeyEntry} {t : Int}
    (h : GoEntry parseTime line g) (ht : listedNotAfter parseTime line = some t) :
    g.notAfter = t := by
  obtain ⟨field, -, h⟩ := h
  rcases h with ⟨hfields, -⟩ | ⟨notAfter, hfields, htime⟩
  · rw [listedNotAfter, hfields] at ht
    cases ht
  · rw [listedNotAfter, hfields] at ht
    exact Option.some.inj (htime.symm.trans ht)

theorem rel_of_getElem? {α β : Type} {R : α → β → Prop} {as : List α} {bs : List β} {a : α} {b : β}
    (h : List.Forall₂ R as bs) {i : ℕ} (ha : as[i]? = some a) (hb : bs[i]? = some b) : R a b := by
  induction h generalizing i with
  | nil => simp at ha
  | cons hab _ ih =>
      cases i with
      | zero =>
          obtain rfl := Option.some.inj ha
          obtain rfl := Option.some.inj hb
          exact hab
      | succ i => exact ih ha hb

/-- The Rust agents never use a key from its not-after time on. -/
theorem rust_usedOnlyBefore {lines : List (List Char)} {keys : KeySet C}
    (h : List.Forall₂ (RustEntry C) lines keys) :
    UsedOnlyBefore C.parseTime lines keys (fun e => e.isActive now) fun t => now.lt t := by
  intro i line e t hline he hlisted hused
  have hentry := rel_of_getElem? h hline he
  have hactive : e.isActive now = true := hused
  rw [KeyEntry.isActive, hentry.notAfter_eq, hlisted] at hactive
  exact hactive

/-- The Go agents use a key from its not-after time on exactly if that is the zero time. -/
theorem go_usedOnlyBefore_iff {lines rest : List (List Char)} {keys : Shared.KeySet}
    (h : List.Forall₂ (GoEntry parseTime) lines keys) :
    UsedOnlyBefore parseTime (lines ++ rest) keys (fun e => e.isActive now.instant)
        (fun t => now.instant < t) ↔
      ∀ line ∈ lines, listedNotAfter parseTime line = some Shared.zeroTime →
        now.instant < Shared.zeroTime := by
  have hlen := h.length_eq
  constructor
  · intro hused line hline hlisted
    obtain ⟨i, hi, hget⟩ := List.mem_iff_getElem.mp hline
    have hline : lines[i]? = some line := by rw [← hget]; exact List.getElem?_eq_getElem hi
    have hkey : keys[i]? = some (keys[i]) := List.getElem?_eq_getElem (hlen ▸ hi)
    have hzero := (rel_of_getElem? h hline hkey).notAfter_eq hlisted
    have hactive : keys[i].isActive now.instant = true := by
      rw [Shared.KeyEntry.isActive, if_pos hzero]
    refine hused i line _ _ ?_ hkey hlisted hactive
    rw [List.getElem?_append_left hi, hline]
  · intro hzero i line g t hline hkey hlisted hused
    have hi : i < lines.length := by
      rw [hlen]
      exact (List.getElem?_eq_some_iff.mp hkey).1
    rw [List.getElem?_append_left hi] at hline
    obtain rfl := (rel_of_getElem? h hline hkey).notAfter_eq hlisted
    have hactive : g.isActive now.instant = true := hused
    rw [Shared.KeyEntry.isActive] at hactive
    split_ifs at hactive with hg
    · rw [hg] at hlisted ⊢
      exact hzero line (List.mem_of_getElem? hline) hlisted
    · exact of_decide_eq_true hactive

/-- Where no line lists the zero time, the keys and their activity agree place by place. -/
theorem forall₂_same (hagree : TimesAgree parseTime C) (hnow : now.nanos < 10 ^ 9)
    {lines : List (List Char)} {goKeys : Shared.KeySet} {keys : KeySet C}
    (hg : List.Forall₂ (GoEntry parseTime) lines goKeys)
    (he : List.Forall₂ (RustEntry C) lines keys)
    (hzero : ∀ line ∈ lines, listedNotAfter parseTime line = some Shared.zeroTime →
      now.instant < Shared.zeroTime) :
    List.Forall₂ (fun (g : Shared.KeyEntry) (e : KeyEntry C) => C.keyFromBytes g.pub = .ok e.key ∧
      g.isActive now.instant = e.isActive now) goKeys keys := by
  induction hg generalizing keys with
  | nil =>
      cases he
      exact List.Forall₂.nil
  | @cons line g lines goKeys hline _ ih =>
      cases he with
      | cons hline' hlines' =>
          have hsame := sameEntry hagree hline hline'
          refine List.Forall₂.cons ⟨hsame.key, ?_⟩ ?_
          · exact hsame.isActive_eq hnow (hzero line List.mem_cons_self)
          · exact ih hlines' fun line' hmem => hzero line' (List.mem_cons_of_mem _ hmem)

theorem forall₂_consulted {goKeys : Shared.KeySet} {keys : KeySet C}
    (h : List.Forall₂ (fun (g : Shared.KeyEntry) (e : KeyEntry C) =>
      C.keyFromBytes g.pub = .ok e.key ∧ g.isActive now.instant = e.isActive now) goKeys keys) :
    List.Forall₂ (fun pub key => C.keyFromBytes pub = .ok key) (goConsulted goKeys now.instant)
      (consulted keys now) := by
  rw [goConsulted, consulted, List.forall₂_map_left_iff, List.forall₂_map_right_iff]
  have hfilter := List.rel_filter (p := fun g : Shared.KeyEntry => g.isActive now.instant)
    (q := fun e : KeyEntry C => e.isActive now) (fun g e hge => Bool.eq_iff_iff.mp hge.2) h
  exact hfilter.imp fun g e hge => hge.1

/-- Keys of lines that are related to no key of the other side are not consulted. -/
theorem consulted_eq_nil_iff {lines : List (List Char)} {keys : KeySet C}
    (h : List.Forall₂ (RustEntry C) lines keys) :
    consulted keys now = [] ↔
      ∀ line ∈ lines, ∃ t, listedNotAfter C.parseTime line = some t ∧ now.lt t = false := by
  rw [consulted, List.map_eq_nil_iff, List.filter_eq_nil_iff]
  induction h with
  | nil => simp
  | cons hline _ ih =>
      rw [List.forall_mem_cons, List.forall_mem_cons, ih, Bool.not_eq_true,
        hline.isActive_eq_false_iff]

/-- Two agents that read one key set text keep the expiries and consult the same keys at an
instant exactly if the text is unambiguous then. -/
theorem alike_iff_unambiguous (hagree : TimesAgree parseTime C) {text : String}
    {goKeys : Shared.KeySet} {keys : KeySet C}
    (hgo : Shared.KeySet.parseKeySet parseTime text.toList = .ok goKeys)
    (hrust : parse C text = .ok keys) (hnow : now.nanos < 10 ^ 9) :
    Alike parseTime C text goKeys keys now ↔ Unambiguous parseTime C text now := by
  have hg := forall₂_of_parseKeySet hgo
  have he := forall₂_of_parse hrust
  have hused : UsedOnlyBefore parseTime (keyLines text.toList) goKeys
      (fun e => e.isActive now.instant) (fun t => now.instant < t) ↔ _ :=
    keyLines_eq_append text.toList ▸ go_usedOnlyBefore_iff hg
  -- the keys of the lines that the scanner reaches, and the others
  obtain ⟨seen, unseen, hseen, hunseen, rfl⟩ : ∃ seen unseen,
      List.Forall₂ (RustEntry C) (scannedLines text.toList) seen ∧
      List.Forall₂ (RustEntry C) (unscannedLines text.toList) unseen ∧ keys = seen ++ unseen := by
    have happend := he
    rw [keyLines_eq_append] at happend
    exact ⟨_, _, (List.forall₂_take_append _ _ _ happend.flip).flip,
      (List.forall₂_drop_append _ _ _ happend.flip).flip, (List.take_append_drop _ keys).symm⟩
  have hsplit : consulted (seen ++ unseen) now = consulted seen now ++ consulted unseen now := by
    rw [consulted, List.filter_append, List.map_append, consulted, consulted]
  constructor
  · rintro ⟨hbefore, -, hsame⟩
    have hzero := hused.mp hbefore
    refine ⟨hzero, (consulted_eq_nil_iff hunseen).mp ?_⟩
    have hlen := (forall₂_consulted (forall₂_same hagree hnow hg hseen hzero)).length_eq
    have hlen' := hsame.length_eq
    rw [hsplit, List.length_append] at hlen'
    exact List.length_eq_zero_iff.mp (by omega)
  · rintro ⟨hzero, hexpired⟩
    refine ⟨hused.mpr hzero, rust_usedOnlyBefore he, ?_⟩
    rw [hsplit, (consulted_eq_nil_iff hunseen).mpr hexpired, List.append_nil]
    exact forall₂_consulted (forall₂_same hagree hnow hg hseen hzero)

end Consulted

/-! ## A crate that reads what the layout says -/

/-- A timestamp of the calendar with its offset, as the Rust agents keep it. -/
def readStrict (text : List Char) : Option DateTime :=
  (Timestamp.read text).bind fun s => DateTime.fromTimestamp (s.secs - s.offset * 60) s.nanos

abbrev strictCrypto : Crypto where
  Key := Bytes
  Sig := Bytes
  keyFromBytes := .ok
  sigFromSlice := .ok
  verify key _ sig := key == sig
  parseRfc3339 text :=
    match readStrict text.toList with
    | none => .error "invalid"
    | some t => .ok t

theorem strictCrypto_parseTime (text : List Char) :
    strictCrypto.parseTime text = readStrict text := by
  simp only [Crypto.parseTime, String.toList_ofList]
  cases readStrict text <;> rfl

theorem timesAgree_strict : TimesAgree Shared.KeySet.parseStrict strictCrypto := by
  intro text t d ht hd
  rw [strictCrypto_parseTime] at hd
  obtain ⟨s, hread, hd⟩ := Option.bind_eq_some_iff.mp hd
  obtain ⟨hsecs, hnanos, hlt⟩ := DateTime.fromTimestamp_eq_some.mp hd
  rw [Shared.KeySet.parseStrict, hread] at ht
  rw [DateTime.instant, hsecs, hnanos]
  exact ⟨hlt, Option.some.inj ht⟩

/-- Noon of a day in 2026. -/
def someNoon : DateTime := (readStrict "2026-10-02T12:00:00Z".toList).getD epoch

/-- The key of zero bytes with a not-after time. -/
def zeroKeyUntil (notAfter : String) : String :=
  String.ofList (Shared.KeySet.zeroKeyLine ++ ' ' :: notAfter.toList)

theorem exists_ok_of_map {ε α β : Type} {x : Except ε α} {f : α → β} {b : β}
    (h : x.toOption.map f = some b) : ∃ a, x = .ok a ∧ f a = b := by
  cases x with
  | error err => cases h
  | ok a => exact ⟨a, rfl, Option.some.inj h⟩

/-- A key that expires in 2030 is one key to both. -/
theorem alike_until2030 :
    ∃ goKeys keys, Shared.KeySet.parseKeySet Shared.KeySet.parseStrict
        (zeroKeyUntil "2030-01-01T00:00:00Z").toList = .ok goKeys ∧
      parse strictCrypto (zeroKeyUntil "2030-01-01T00:00:00Z") = .ok keys ∧
      Alike Shared.KeySet.parseStrict strictCrypto (zeroKeyUntil "2030-01-01T00:00:00Z") goKeys keys
        someNoon := by
  obtain ⟨goKeys, hgo, -⟩ := exists_ok_of_map (show (Shared.KeySet.parseKeySet
    Shared.KeySet.parseStrict (zeroKeyUntil "2030-01-01T00:00:00Z").toList).toOption.map
      List.length = some 1 by decide +kernel)
  obtain ⟨keys, hrust, -⟩ := exists_ok_of_map (show (parse strictCrypto
    (zeroKeyUntil "2030-01-01T00:00:00Z")).toOption.map List.length = some 1 by decide +kernel)
  refine ⟨goKeys, keys, hgo, hrust,
    (alike_iff_unambiguous timesAgree_strict hgo hrust (by decide +kernel)).mpr ⟨?_, ?_⟩⟩
  · intro line hline hlisted
    have hnone : ∀ line ∈ scannedLines (zeroKeyUntil "2030-01-01T00:00:00Z").toList,
        listedNotAfter Shared.KeySet.parseStrict line ≠ some Shared.zeroTime := by decide +kernel
    exact absurd hlisted (hnone line hline)
  · have hnil : unscannedLines (zeroKeyUntil "2030-01-01T00:00:00Z").toList = [] := by
      decide +kernel
    simp [hnil]

/-- A key that has expired at the zero time is used by the Go agents, and by the Rust agents it
is not. -/
theorem zeroTime_never_expires :
    ∃ goKeys keys, Shared.KeySet.parseKeySet Shared.KeySet.parseStrict
        (zeroKeyUntil "0001-01-01T00:00:00Z").toList = .ok goKeys ∧
      parse strictCrypto (zeroKeyUntil "0001-01-01T00:00:00Z") = .ok keys ∧
      goConsulted goKeys someNoon.instant = [List.replicate 32 0] ∧ consulted keys someNoon = [] ∧
      ¬ Alike Shared.KeySet.parseStrict strictCrypto (zeroKeyUntil "0001-01-01T00:00:00Z") goKeys
        keys someNoon := by
  obtain ⟨goKeys, hgo, hused⟩ := exists_ok_of_map (show (Shared.KeySet.parseKeySet
    Shared.KeySet.parseStrict (zeroKeyUntil "0001-01-01T00:00:00Z").toList).toOption.map
      (goConsulted · someNoon.instant) = some [List.replicate 32 0] by decide +kernel)
  obtain ⟨keys, hrust, hunused⟩ := exists_ok_of_map (show (parse strictCrypto
    (zeroKeyUntil "0001-01-01T00:00:00Z")).toOption.map (consulted · someNoon) = some [] by
      decide +kernel)
  refine ⟨goKeys, keys, hgo, hrust, hused, hunused, fun halike => ?_⟩
  have hsame := halike.same
  rw [hused, hunused] at hsame
  cases hsame

end KeySet

end PmxAgents.SharedRust
