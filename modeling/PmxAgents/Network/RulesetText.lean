import Mathlib.Data.List.Basic
import PmxAgents.Lib.Words
import PmxAgents.Network.Firewall
import PmxAgents.Network.InterfaceSpec

/-!
# What a rendered ruleset says

The agent checks the fields of a ruleset and prints them into the lines of a file for
`nft`. Here the lines are read again: a rule is a line of words, and the words give back
the expressions that were asked for. The printed values have no character that `nft`
gives a meaning to, so that a value cannot end its line, its rule or its quotation.

Two things are not as in the request. A conntrack state that is listed twice is
printed once, and the managed table comes after an empty line.

## Implementation notes

A statement keeps what an expression means: an address as its bits, a port as its number,
a word in lower case and without the blanks around it. Expressions that are spelled
differently have one statement.
-/

namespace PmxAgents.Network

open Lib

/-! ## Statements -/

inductive Statement where
  | address (field : String) (negated : Bool) (ip : IpText.Addr) (len : Option ℕ)
  | port (field : String) (negated : Bool) (lo : ℕ) (hi : Option ℕ)
  | proto (negated : Bool) (name : String)
  | interface (field : String) (negated : Bool) (name : String)
  | states (names : List String)
  | counter
  | accept
  | drop
  | jump (target : String)
  deriving DecidableEq

def addressFields : List String := ["ip saddr", "ip daddr", "ip6 saddr", "ip6 daddr"]

def portFields : List String := ["tcp dport", "udp dport"]

/-- An address, with the length of a prefix if there is one. -/
def readCidr (value : String) : Option (IpText.Addr × Option ℕ) :=
  match splitOnce '/' value with
  | some (ip, len) => (IpText.parse ip.toList).bind fun a =>
      (parseUnsigned 255 len).map fun n => (a, some n)
  | none => (IpText.parse value.toList).map fun a => (a, none)

/-- A port, or the first and the last one of a range. -/
def readPorts (value : String) : Option (ℕ × Option ℕ) :=
  match splitOnce '-' value with
  | some (lo, hi) => (parseUnsigned 65535 (Text.trimSpace lo)).bind fun lo =>
      (parseUnsigned 65535 (Text.trimSpace hi)).map fun hi => (lo, some hi)
  | none => (parseUnsigned 65535 (Text.trimSpace value)).map fun port => (port, none)

/-- A field that is compared with a plain value. -/
def readField (field : String) (negated : Bool) (value : String) : Option Statement :=
  if field ∈ addressFields then (readCidr value).map fun a => .address field negated a.1 a.2
  else if field ∈ portFields then (readPorts value).map fun p => .port field negated p.1 p.2
  else if field = "meta l4proto" then some (.proto negated value)
  else none

/-- What a match of a request means, from the field in lower case and the value without blanks. -/
def matchStatement (std : Std) (field : String) (negated : Bool)
    (value : String) : Option Statement :=
  if field ∈ ["iifname", "oifname"] then some (.interface field negated value)
  else if field = "ct state" then
    some (.states ((Text.split ',' value.toList).map fun raw =>
      std.lowercase (String.ofList (Text.trim raw))))
  else if field = "meta l4proto" then some (.proto negated (std.lowercase value))
  else readField field negated value

/-- What an expression of a request means. -/
def Expr.statement (std : Std) : Expr → Option Statement
  | .matchField left op right =>
      matchStatement std (std.lowercase (Text.trimSpace left))
        (decide (std.lowercase (Text.trimSpace op) = "!=")) (Text.trimSpace right)
  | .counter => some .counter
  | .accept => some .accept
  | .drop => some .drop
  | .jump target => some (.jump target)

/-- The statement with each conntrack state once. -/
def Statement.distinct : Statement → Statement
  | .states names => .states names.eraseDups
  | s => s

/-! ## Reading rules -/

/-- The text between quotation marks. -/
def unquote (word : String) : Option String :=
  match word.toList with
  | '"' :: rest => if rest.getLast? = some '"' then some (String.ofList rest.dropLast) else none
  | _ => none

def dropComma (word : String) : String :=
  if word.toList.getLast? = some ',' then String.ofList word.toList.dropLast else word

/-- A value, after the sign of a negation if there is one. -/
def readValue (read : Bool → String → Option Statement) :
    List String → Option (Statement × List String)
  | [] => none
  | word :: rest =>
      if word = "!=" then
        match rest with
        | [] => none
        | value :: rest => (read true value).map (·, rest)
      else (read false word).map (·, rest)

/-- Conntrack states, as a set in brackets or with commas only. -/
def readStates : List String → Option (Statement × List String)
  | [] => none
  | word :: rest =>
      if word = "\x7b" then
        some (.states ((rest.takeWhile (· ≠ "\x7d")).map dropComma),
          (rest.dropWhile (· ≠ "\x7d")).drop 1)
      else some (.states ((Text.split ',' word.toList).map String.ofList), rest)

/-- The first statement of a rule and the words after it. -/
def readStatement : List String → Option (Statement × List String)
  | [] => none
  | word :: rest =>
      if word = "counter" then some (.counter, rest)
      else if word = "accept" then some (.accept, rest)
      else if word = "drop" then some (.drop, rest)
      else if word = "jump" then
        match rest with
        | [] => none
        | target :: rest => some (.jump target, rest)
      else if word ∈ ["iifname", "oifname"] then
        readValue (fun negated value => (unquote value).map (.interface word negated)) rest
      else
        match rest with
        | [] => none
        | part :: rest =>
            if word = "ct" ∧ part = "state" then readStates rest
            else readValue (readField (word ++ " " ++ part)) rest

/-- The statements of a rule, at most as many as told. -/
def readStatements : ℕ → List String → Option (List Statement)
  | _, [] => some []
  | 0, _ :: _ => none
  | n + 1, words => (readStatement words).bind fun (s, rest) =>
      (readStatements n rest).map (s :: ·)

/-- The statements of a line that is a rule. -/
def readRule (line : String) : Option (List Statement) :=
  readStatements (Text.words line).length (Text.words line)

/-! ## Characters of values -/

/-- The characters that `nft` gives a meaning to, in the order in which they stand. -/
def specials (s : String) : List Char :=
  s.toList.filter fun c => c ∈ ['\n', ';', '\x7b', '\x7d', '"', '#']

/-- Letters, digits and the characters of names, addresses and ranges. -/
def isValueChar (c : Char) : Bool :=
  (45 ≤ c.toNat && c.toNat ≤ 58) || (65 ≤ c.toNat && c.toNat ≤ 90) || c.toNat == 95 ||
    (97 ≤ c.toNat && c.toNat ≤ 122)

/-- The characters of the text with a meaning are the given ones, and it can stand in a line. -/
structure Marked (cs : List Char) (s : String) : Prop where
  marks : specials s = cs
  printable : Interfaces.Printable s

instance (cs : List Char) (s : String) : Decidable (Marked cs s) :=
  decidable_of_iff (specials s = cs ∧ Interfaces.Printable s)
    ⟨fun h => ⟨h.1, h.2⟩, fun h => ⟨h.1, h.2⟩⟩

/-- A text that can be printed as a value. -/
structure ValueWord (s : String) : Prop where
  ne_nil : s.toList ≠ []
  chars : ∀ c ∈ s.toList, isValueChar c

section Characters
variable {c : Char} {s t : String} {cs ds : List Char}

theorem isValueChar_iff : isValueChar c = true ↔ 45 ≤ c.toNat ∧ c.toNat ≤ 58 ∨
    65 ≤ c.toNat ∧ c.toNat ≤ 90 ∨ c.toNat = 95 ∨ 97 ≤ c.toNat ∧ c.toNat ≤ 122 := by
  simp only [isValueChar, Bool.or_eq_true, Bool.and_eq_true, decide_eq_true_eq, beq_iff_eq,
    or_assoc]

theorem isValueChar_of_isAlphanum (h : c.isAlphanum) : isValueChar c := by
  rw [isValueChar_iff]
  rcases (Bool.or_eq_true _ _).mp h with h | h
  · have hrange := Ascii.toNat_of_isAlpha h
    omega
  · have hrange := Ascii.toNat_of_isDigit h
    omega

theorem isValueChar_of_isDigit (h : c.isDigit) : isValueChar c :=
  isValueChar_of_isAlphanum (by simp [Char.isAlphanum, h])

theorem isValueChar_of_isAddrChar (h : IpText.isAddrChar c) : isValueChar c := by
  simp only [IpText.isAddrChar, IpText.isHexDigit, Bool.or_eq_true, Bool.and_eq_true,
    decide_eq_true_eq, beq_iff_eq, Char.le_def, UInt32.le_iff_toNat_le, Char.reduceVal,
    UInt32.reduceToNat] at h
  have hval : c.toNat = c.val.toNat := rfl
  rcases h with (((h | h) | h) | rfl) | rfl
  · exact isValueChar_of_isDigit h
  · rw [isValueChar_iff]
    omega
  · rw [isValueChar_iff]
    omega
  · decide
  · decide

theorem isSpace_of_isValueChar (h : isValueChar c) : Text.isSpace c = false := by
  rw [isValueChar_iff] at h
  simp only [Text.isSpace, Bool.or_eq_false_iff, Bool.and_eq_false_iff, decide_eq_false_iff_not,
    beq_eq_false_iff_ne]
  omega

theorem isPrintable_of_isValueChar (h : isValueChar c) : Interfaces.isPrintable c := by
  rw [isValueChar_iff] at h
  simp only [Interfaces.isPrintable, Bool.and_eq_true, decide_eq_true_eq]
  omega

theorem ValueWord.word (h : ValueWord s) : Text.Word s :=
  ⟨h.ne_nil, fun c hc => isSpace_of_isValueChar (h.chars c hc)⟩

theorem ValueWord.not_mem (h : ValueWord s) (hc : isValueChar c = false) : c ∉ s.toList :=
  fun hmem => absurd (h.chars c hmem) (by simp [hc])

theorem Marked.append (hs : Marked cs s) (ht : Marked ds t) : Marked (cs ++ ds) (s ++ t) := by
  refine ⟨?_, hs.printable.append ht.printable⟩
  rw [specials, String.toList_append, List.filter_append, ← hs.marks, ← ht.marks]
  rfl

theorem ValueWord.marked (h : ValueWord s) : Marked [] s := by
  refine ⟨List.filter_eq_nil_iff.mpr fun c hc hmem => ?_,
    fun c hc => isPrintable_of_isValueChar (h.chars c hc)⟩
  have hchar := h.chars c hc
  rw [decide_eq_true_eq] at hmem
  simp only [List.mem_cons, List.not_mem_nil, or_false] at hmem
  obtain rfl | rfl | rfl | rfl | rfl | rfl := hmem
  all_goals exact absurd hchar (by decide)

/-- A value in a template. -/
theorem ValueWord.between (hs : Marked cs s) {name : String} (h : ValueWord name)
    (ht : Marked ds t) : Marked (cs ++ ds) (s ++ name ++ t) := by
  have hmarked := (hs.append h.marked).append ht
  rwa [List.append_nil] at hmarked

/-- Texts that are printed one after the other. -/
theorem Marked.intercalate {α : Type*} {f : α → List Char} {l : List α} {texts : List String}
    (hsep : Marked [] s) (h : List.Forall₂ (fun a text => Marked (f a) text) l texts) :
    Marked (l.flatMap f) (s.intercalate texts) := by
  induction h with
  | nil => exact ⟨rfl, nofun⟩
  | @cons a text l texts ha htexts ih =>
      rw [List.flatMap_cons]
      cases htexts with
      | nil =>
          rw [List.flatMap_nil, List.append_nil]
          exact ha
      | cons _ _ =>
          have hmarked := (ha.append hsep).append ih
          rwa [List.append_nil, ← Text.intercalate_cons_cons] at hmarked

theorem valueWord_of_mem {names : List String}
    (hnames : ∀ n ∈ names, n.toList ≠ [] ∧ n.toList.all isValueChar) (h : s ∈ names) :
    ValueWord s :=
  ⟨(hnames s h).1, List.all_eq_true.mp (hnames s h).2⟩

theorem valueWord_of_isSafeIdent (h : isSafeIdent s) : ValueWord s := by
  simp only [isSafeIdent, Bool.and_eq_true, decide_eq_true_eq, List.all_eq_true,
    Bool.or_eq_true] at h
  obtain ⟨hne, hchars⟩ := h
  refine ⟨fun hnil => hne (String.toList_inj.mp hnil), fun c hc => ?_⟩
  rcases hchars c hc with h | h
  · exact isValueChar_of_isAlphanum h
  · obtain rfl | rfl : c = '_' ∨ c = '-' := by simpa using h
    all_goals decide

theorem valueWord_toString (n : ℕ) : ValueWord (toString n) := by
  have hlist : (toString n).toList = Nat.toDigits 10 n := Nat.toList_repr
  refine ⟨by rw [hlist]; exact Nat.toDigits_ne_nil, fun c hc => ?_⟩
  rw [hlist] at hc
  exact isValueChar_of_isDigit (Nat.isDigit_of_mem_toDigits (by decide) le_rfl hc)

theorem ValueWord.append (hs : ValueWord s) (ht : ValueWord t) {sep : String} {c : Char}
    (hsep : sep.toList = [c]) (hc : isValueChar c) : ValueWord (s ++ sep ++ t) := by
  refine ⟨?_, fun d hd => ?_⟩
  · rw [String.toList_append, String.toList_append]
    exact List.append_ne_nil_of_left_ne_nil (List.append_ne_nil_of_left_ne_nil hs.ne_nil _) _
  · rw [String.toList_append, String.toList_append, List.mem_append, List.mem_append, hsep,
      List.mem_singleton] at hd
    rcases hd with (hd | rfl) | hd
    · exact hs.chars d hd
    · exact hc
    · exact ht.chars d hd

end Characters

/-! ## Printed values -/

/-- What is used of the documentation of the standard library: the canonical form of an address is
a text for the same address, and a text without capital letters is in lower case. -/
structure Std.Documented (std : Std) : Prop where
  parseIp : ∀ s ip, std.parseIp s = some ip → ∃ a, IpText.parse s.toList = some a ∧
    IpText.parse ip.text.toList = some a ∧ a.bits = ip.maxPrefix
  lowercase : ∀ s : String, (∀ c ∈ s.toList, c.toNat < 128 ∧ ! c.isUpper) → std.lowercase s = s

section Values
variable {std : Std} {value rhs s t : String}

theorem splitOnce_of_not_mem {sep : Char} (h : sep ∉ s.toList) : splitOnce sep s = none := if_neg h

theorem splitOnce_append {sep : Char} {middle : String} (hmiddle : middle.toList = [sep])
    (h : sep ∉ s.toList) : splitOnce sep (s ++ middle ++ t) = some (s, t) := by
  have hlist : (s ++ middle ++ t).toList = s.toList ++ sep :: t.toList := by
    rw [String.toList_append, String.toList_append, hmiddle, List.append_assoc,
      List.singleton_append]
  have hmem : sep ∈ (s ++ middle ++ t).toList := by
    rw [hlist]
    exact List.mem_append_right _ List.mem_cons_self
  have hkeep : ∀ c ∈ s.toList, decide (c ≠ sep) = true :=
    fun c hc => decide_eq_true fun hsep => h (hsep ▸ hc)
  rw [splitOnce, if_pos hmem, hlist, List.takeWhile_append_of_pos hkeep,
    List.dropWhile_append_of_pos hkeep, List.takeWhile_cons_of_neg (by simp),
    List.dropWhile_cons_of_neg (by simp), List.append_nil, List.drop_one, List.tail_cons,
    String.ofList_toList, String.ofList_toList]

theorem trimSpace_of_word (h : Text.Word s) : Text.trimSpace s = s := by
  have hdrop : ∀ l : List Char, (∀ c ∈ l, Text.isSpace c = false) →
    l.dropWhile Text.isSpace = l := by
    intro l hl
    cases l with
    | nil => rfl
    | cons c l => rw [List.dropWhile_cons_of_neg (by simp [hl c List.mem_cons_self])]
  rw [Text.trimSpace, Text.trim, hdrop _ h.not_space,
    hdrop _ fun c hc => h.not_space c (List.mem_reverse.mp hc), List.reverse_reverse,
    String.ofList_toList]

theorem parseUnsigned_le {max n : ℕ} (h : parseUnsigned max s = some n) : n ≤ max := by
  simp only [parseUnsigned] at h
  split_ifs at h <;> cases h <;> assumption

theorem parseUnsigned_toString {max n : ℕ} (h : n ≤ max) : parseUnsigned max
    (toString n) = some n := by
  have hlist : (toString n).toList = Nat.toDigits 10 n := Nat.toList_repr
  have hdigits : ∀ c ∈ Nat.toDigits 10 n, c.isDigit :=
    fun c hc => Nat.isDigit_of_mem_toDigits (by decide) le_rfl hc
  have hplus : (Nat.toDigits 10 n).head? ≠ some '+' :=
    fun hhead => absurd (hdigits _ (List.mem_of_head? hhead)) (by decide)
  simp only [parseUnsigned, hlist, if_neg hplus, Nat.ofDigitChars_ten_toDigits]
  rw [if_pos ⟨Nat.toDigits_ne_nil, List.all_eq_true.mpr hdigits⟩, if_pos h]

theorem valueWord_of_parse {a : IpText.Addr} (h : IpText.parse s.toList = some a) :
    ValueWord s := by
  refine ⟨fun hnil => ?_, fun c hc => isValueChar_of_isAddrChar ((IpText.parse_shape h).2 c hc)⟩
  have hempty : IpText.parse [] = none := by decide
  rw [hnil, hempty] at h
  cases h

theorem slash_not_mem_of_parse {a : IpText.Addr} (h : IpText.parse s.toList = some a) :
    '/' ∉ s.toList :=
  fun hc => absurd ((IpText.parse_shape h).2 _ hc) (by decide)

theorem readCidr_prefix {ip len : String} {a : IpText.Addr} {n : ℕ}
    (hsplit : splitOnce '/' value = some (ip, len))
    (hparse : IpText.parse ip.toList = some a) (hn : parseUnsigned 255 len = some n) :
    readCidr value = some (a, some n) := by
  simp only [readCidr, hsplit, hparse, hn, Option.bind_some, Option.map_some]

theorem readCidr_plain {a : IpText.Addr} (hsplit : splitOnce '/' value = none)
    (hparse : IpText.parse value.toList = some a) : readCidr value = some (a, none) := by
  simp only [readCidr, hsplit, hparse, Option.map_some]

theorem readPorts_range {first last : String} {lo hi : ℕ}
    (hsplit : splitOnce '-' value = some (first, last))
    (hlo : parseUnsigned 65535 (Text.trimSpace first) = some lo)
    (hhi : parseUnsigned 65535 (Text.trimSpace last) = some hi) :
    readPorts value = some (lo, some hi) := by
  simp only [readPorts, hsplit, hlo, hhi, Option.bind_some, Option.map_some]

theorem readPorts_single {port : ℕ} (hsplit : splitOnce '-' value = none)
    (hport : parseUnsigned 65535 (Text.trimSpace value) = some port) :
    readPorts value = some (port, none) := by
  simp only [readPorts, hsplit, hport, Option.map_some]

/-- A printed address says the same as the given one. -/
theorem readCidr_of_validateIpOrCidr (hstd : std.Documented)
    (h : validateIpOrCidr std value = .ok rhs) :
    ValueWord rhs ∧ ∃ a, readCidr value = some a ∧ readCidr rhs = some a := by
  rw [validateIpOrCidr] at h
  cases hsplit : splitOnce '/' value with
  | none =>
      simp only [hsplit] at h
      cases hip : std.parseIp value with
      | none => rw [hip] at h; cases h
      | some ip =>
          rw [hip] at h
          obtain rfl := Except.ok.inj h
          obtain ⟨a, hparse, htext, -⟩ := hstd.parseIp value ip hip
          exact ⟨valueWord_of_parse htext, (a, none), readCidr_plain hsplit hparse,
            readCidr_plain (splitOnce_of_not_mem (slash_not_mem_of_parse htext)) htext⟩
  | some parts =>
      obtain ⟨host, len⟩ := parts
      simp only [hsplit] at h
      cases hip : std.parseIp host with
      | none => rw [hip] at h; cases h
      | some ip =>
          obtain ⟨a, hparse, htext, -⟩ := hstd.parseIp host ip hip
          simp only [hip] at h
          cases hn : parseUnsigned 255 len with
          | none => rw [hn] at h; cases h
          | some n =>
              simp only [hn] at h
              split_ifs at h with hle
              obtain rfl := Except.ok.inj h
              have hagain := splitOnce_append (t := toString n)
                (show ("/" : String).toList = ['/'] from rfl)
                (slash_not_mem_of_parse htext)
              exact ⟨(valueWord_of_parse htext).append (valueWord_toString n) rfl (by decide),
                (a, some n), readCidr_prefix hsplit hparse hn,
                readCidr_prefix hagain htext (parseUnsigned_toString (parseUnsigned_le hn))⟩

theorem readPorts_of_validatePortExpr (h : validatePortExpr value = .ok rhs) :
    ValueWord rhs ∧ ∃ p, readPorts value = some p ∧ readPorts rhs = some p := by
  have hdash : ∀ n : ℕ, '-' ∉ (toString n).toList := by
    intro n hmem
    rw [show (toString n).toList = Nat.toDigits 10 n from Nat.toList_repr] at hmem
    exact absurd (Nat.isDigit_of_mem_toDigits (by decide) le_rfl hmem) (by decide)
  have hprinted : ∀ {s n}, parseUnsigned 65535 s = some n →
      parseUnsigned 65535 (Text.trimSpace (toString n)) = some n := by
    intro s n hn
    rw [trimSpace_of_word (valueWord_toString n).word]
    exact parseUnsigned_toString (parseUnsigned_le hn)
  rw [validatePortExpr] at h
  cases hsplit : splitOnce '-' value with
  | none =>
      simp only [hsplit] at h
      cases hn : parseUnsigned 65535 (Text.trimSpace value) with
      | none => rw [hn] at h; cases h
      | some port =>
          simp only [hn] at h
          split_ifs at h
          obtain rfl := Except.ok.inj h
          exact ⟨valueWord_toString port, (port, none), readPorts_single hsplit hn,
            readPorts_single (splitOnce_of_not_mem (hdash port)) (hprinted hn)⟩
  | some parts =>
      obtain ⟨first, last⟩ := parts
      simp only [hsplit] at h
      cases hlo : parseUnsigned 65535 (Text.trimSpace first) with
      | none => rw [hlo] at h; cases h
      | some lo =>
          simp only [hlo] at h
          cases hhi : parseUnsigned 65535 (Text.trimSpace last) with
          | none => rw [hhi] at h; cases h
          | some hi =>
              simp only [hhi] at h
              split_ifs at h
              obtain rfl := Except.ok.inj h
              have hagain := splitOnce_append (t := toString hi)
                (show ("-" : String).toList = ['-'] from rfl)
                (hdash lo)
              exact ⟨(valueWord_toString lo).append (valueWord_toString hi) rfl (by decide),
                (lo, some hi), readPorts_range hsplit hlo hhi,
                readPorts_range hagain (hprinted hlo) (hprinted hhi)⟩

end Values

/-! ## Printed expressions -/

/-- The characters with a meaning that belong to the form of a statement. -/
def Statement.marks : Statement → List Char
  | .interface _ _ _ => ['"', '"']
  | .states _ => ['\x7b', '\x7d']
  | _ => []

/-- The text is read as the statement, whatever follows it, and has no other marks. -/
structure ReadsTo (s : Statement) (text : String) : Prop extends Marked s.marks text where
  ne_nil : Text.words text ≠ []
  read : ∀ rest, readStatement (Text.words text ++ rest) = some (s, rest)

section Expressions
variable {std : Std} {field cmp op value rhs text name : String} {s : Statement}

theorem words_renderValueMatch (field cmp : String) (hrhs : Text.words rhs = [rhs]) :
    Text.words (renderValueMatch field cmp rhs) =
      Text.words field ++ if cmp = "!=" then ["!=", rhs] else [rhs] := by
  rw [renderValueMatch]
  split_ifs with hcmp
  · have hsplit : field ++ " != " ++ rhs = field ++ " " ++ ("!=" ++ " " ++ rhs) := by
      rw [← String.toList_inj]
      simp [String.toList_append]
    rw [hsplit, Text.words_space, Text.words_head (w := "!=") (by decide), hrhs]
  · rw [Text.words_space, hrhs]

theorem marked_renderValueMatch {cs : List Char} (hfield : Marked [] field) (hrhs : Marked cs rhs) :
    Marked cs (renderValueMatch field cmp rhs) := by
  rw [renderValueMatch]
  split_ifs with hcmp
  · exact (hfield.append (show Marked [] " != " by decide)).append hrhs
  · exact (hfield.append (show Marked [] " " by decide)).append hrhs

theorem readValue_match {read : Bool → String → Option Statement} (hne : rhs ≠ "!=")
    (rest : List String) :
    readValue read ((if cmp = "!=" then ["!=", rhs] else [rhs]) ++ rest) =
      (read (decide (cmp = "!=")) rhs).map (·, rest) := by
  by_cases hcmp : cmp = "!="
  · rw [if_pos hcmp, decide_eq_true hcmp]
    rfl
  · rw [if_neg hcmp, decide_eq_false hcmp]
    exact if_neg hne

theorem ValueWord.ne_negation (h : ValueWord rhs) : rhs ≠ "!=" := by
  rintro rfl
  exact absurd (h.chars '!' (by decide)) (by decide)

/-- The fields with a plain value have two words and are read as such. -/
theorem readStatement_field (h : field ∈ addressFields ++ portFields ++ ["meta l4proto"]) :
    (Text.words field ≠ [] ∧ Marked [] field) ∧
      ∀ rest, readStatement (Text.words field ++ rest) = readValue (readField field) rest := by
  simp only [addressFields, portFields, List.cons_append, List.nil_append, List.mem_cons,
    List.not_mem_nil, or_false] at h
  rcases h with rfl | rfl | rfl | rfl | rfl | rfl | rfl
  all_goals exact ⟨by decide, fun _ => rfl⟩

theorem marks_of_readField {negated : Bool} (h : readField field negated value = some s) :
    s.marks = [] := by
  rw [readField] at h
  split_ifs at h
  · obtain ⟨a, -, rfl⟩ := Option.map_eq_some_iff.mp h
    rfl
  · obtain ⟨p, -, rfl⟩ := Option.map_eq_some_iff.mp h
    rfl
  · cases h
    rfl

theorem readsTo_field (hfield : field ∈ addressFields ++ portFields ++ ["meta l4proto"])
    (hrhs : ValueWord rhs) (hread : readField field (decide (cmp = "!=")) rhs = some s) :
    ReadsTo s (renderValueMatch field cmp rhs) := by
  obtain ⟨⟨hne, hmarked⟩, hstatement⟩ := readStatement_field hfield
  have hwords := words_renderValueMatch field cmp hrhs.word.words_eq
  refine ⟨?_, ?_, fun rest => ?_⟩
  · rw [marks_of_readField hread]
    exact marked_renderValueMatch hmarked hrhs.marked
  · rw [hwords]
    exact List.append_ne_nil_of_left_ne_nil hne _
  · rw [hwords, List.append_assoc, hstatement, readValue_match hrhs.ne_negation, hread,
      Option.map_some]

theorem toList_quoted (name : String) : ("\"" ++ name ++ "\"").toList = '"' ::
    (name.toList ++ ['"']) := by
  simp [String.toList_append]

theorem readsTo_interface (hfield : field ∈ ["iifname", "oifname"]) (hname : ValueWord name) :
    ReadsTo (.interface field (decide (cmp = "!=")) name)
      (renderValueMatch field cmp ("\"" ++ name ++ "\"")) := by
  have hword : Text.Word ("\"" ++ name ++ "\"") := by
    refine ⟨by simp, fun c hc => ?_⟩
    rw [toList_quoted, List.mem_cons, List.mem_append, List.mem_singleton] at hc
    rcases hc with rfl | hc | rfl
    · decide
    · exact hname.word.not_space c hc
    · decide
  have hne : "\"" ++ name ++ "\"" ≠ "!=" := by
    intro heq
    have hlist := congrArg String.toList heq
    rw [toList_quoted] at hlist
    cases hlist
  have hunquote : unquote ("\"" ++ name ++ "\"") = some name := by
    simp only [unquote, toList_quoted, List.getLast?_append, List.getLast?_singleton,
      Option.some_or, if_true, List.dropLast_concat, String.ofList_toList]
  have hquoted : Marked ['"', '"'] ("\"" ++ name ++ "\"") :=
    hname.between (show Marked ['"'] "\"" by decide) (show Marked ['"'] "\"" by decide)
  have hkey : (Text.words field = [field] ∧ Marked [] field) ∧
      ∀ rest, readStatement (field :: rest) = readValue (fun negated value =>
        (unquote value).map (.interface field negated)) rest := by
    simp only [List.mem_cons, List.not_mem_nil, or_false] at hfield
    rcases hfield with rfl | rfl
    all_goals exact ⟨by decide, fun _ => rfl⟩
  obtain ⟨⟨hwords, hmarked⟩, hstatement⟩ := hkey
  have htext := words_renderValueMatch field cmp hword.words_eq
  rw [hwords] at htext
  refine ⟨marked_renderValueMatch hmarked hquoted, by simp [htext], fun rest => ?_⟩
  rw [htext, List.append_assoc, List.singleton_append, hstatement, readValue_match hne, hunquote,
    Option.map_some, Option.map_some]

/-! ### Conntrack states -/

/-- The words of a list that is printed with commas. -/
def withCommas : List String → List String
  | [] => []
  | [name] => [name]
  | name :: next :: rest => (name ++ ",") :: withCommas (next :: rest)

theorem toList_comma (name : String) : (name ++ ",").toList = name.toList ++ [','] := by
  simp [String.toList_append]

theorem ValueWord.word_comma (h : ValueWord name) : Text.Word (name ++ ",") := by
  refine ⟨by simp, fun c hc => ?_⟩
  rw [toList_comma, List.mem_append, List.mem_singleton] at hc
  rcases hc with hc | rfl
  · exact h.word.not_space c hc
  · decide

theorem words_commas {names : List String} (h : ∀ name ∈ names, ValueWord name) :
    Text.words (", ".intercalate names) = withCommas names := by
  induction names with
  | nil => rfl
  | cons name rest ih =>
      have hname := h name List.mem_cons_self
      cases rest with
      | nil => exact hname.word.words_eq
      | cons next rest =>
          have hsplit : name ++ ", " ++ ", ".intercalate (next :: rest) =
              name ++ "," ++ " " ++ ", ".intercalate (next :: rest) := by
            rw [← String.toList_inj]
            simp [String.toList_append]
          rw [Text.intercalate_cons_cons, hsplit, Text.words_head hname.word_comma.words_eq,
            ih fun n hn => h n (List.mem_cons_of_mem _ hn)]
          rfl

theorem mem_withCommas {names : List String} (h : name ∈ withCommas names) :
    ∃ n ∈ names, name = n ∨ name = n ++ "," := by
  induction names with
  | nil => cases h
  | cons n rest ih => cases rest with
    | nil => exact ⟨n, List.mem_cons_self, Or.inl (List.mem_singleton.mp h)⟩
    | cons next rest =>
        rcases List.mem_cons.mp h with h | h
        · exact ⟨n, List.mem_cons_self, Or.inr h⟩
        · obtain ⟨m, hm, hname⟩ := ih h
          exact ⟨m, List.mem_cons_of_mem _ hm, hname⟩

theorem dropComma_withCommas {names : List String} (h : ∀ name ∈ names, ValueWord name) :
    (withCommas names).map dropComma = names := by
  have hcomma : ∀ n : String, dropComma (n ++ ",") = n := by
    intro n
    rw [dropComma, toList_comma, if_pos (by simp), List.dropLast_concat, String.ofList_toList]
  induction names with
  | nil => rfl
  | cons n rest ih => cases rest with
    | nil =>
        have hlast : n.toList.getLast? ≠ some ',' :=
          fun hl => (h n List.mem_cons_self).not_mem (by decide) (List.mem_of_getLast? hl)
        rw [withCommas, List.map_singleton, dropComma, if_neg hlast]
    | cons next rest =>
        rw [withCommas, List.map_cons, hcomma, ih fun m hm => h m (List.mem_cons_of_mem _ hm)]

theorem readsTo_states {names : List String} (h : ∀ name ∈ names, ValueWord name) :
    ReadsTo (.states names) ("ct state \x7b " ++ ", ".intercalate names ++ " \x7d") := by
  have hopen : "ct state \x7b " ++ ", ".intercalate names ++ " \x7d" =
      "ct state \x7b" ++ " " ++ (", ".intercalate names ++ " " ++ "\x7d") := by
    rw [← String.toList_inj]
    simp [String.toList_append]
  have hwords : Text.words ("ct state \x7b " ++ ", ".intercalate names ++ " \x7d") =
      "ct" :: "state" :: "\x7b" :: (withCommas names ++ ["\x7d"]) := by
    have hstart : Text.words "ct state \x7b" = ["ct", "state", "\x7b"] := by decide
    have hend : Text.words "\x7d" = ["\x7d"] := by decide
    rw [hopen, Text.words_space, Text.words_space, words_commas h, hstart, hend]
    rfl
  have hbracket : ∀ w ∈ withCommas names, decide (w ≠ "\x7d") = true := by
    intro w hw
    refine decide_eq_true ?_
    rintro rfl
    obtain ⟨n, hn, heq | heq⟩ := mem_withCommas hw
    · exact absurd ((h n hn).chars '\x7d' (by rw [← heq]; decide)) (by decide)
    · have hlist := congrArg List.getLast? (congrArg String.toList heq)
      rw [toList_comma, List.getLast?_concat] at hlist
      exact absurd hlist (by decide)
  have hnames : List.Forall₂ (fun _ text => Marked [] text) names names :=
    List.forall₂_same.mpr fun n hn => (h n hn).marked
  have hcommas := Marked.intercalate (show Marked [] ", " by decide) hnames
  rw [List.flatMap_eq_nil_iff.mpr fun _ _ => rfl] at hcommas
  refine ⟨((show Marked ['\x7b'] "ct state \x7b " by decide).append hcommas).append
    (show Marked ['\x7d'] " \x7d" by decide), by simp [hwords], fun rest => ?_⟩
  have hset : (withCommas names ++ ["\x7d"]) ++ rest = withCommas names ++ "\x7d" :: rest := by
    rw [List.append_assoc, List.singleton_append]
  have hread : readStatement ("ct" :: "state" :: "\x7b" :: (withCommas names ++ "\x7d" :: rest)) =
      some (.states (((withCommas names ++ "\x7d" :: rest).takeWhile (· ≠ "\x7d")).map dropComma),
        ((withCommas names ++ "\x7d" :: rest).dropWhile (· ≠ "\x7d")).drop 1) := rfl
  rw [hwords, List.cons_append, List.cons_append, List.cons_append, hset, hread,
    List.takeWhile_append_of_pos hbracket, List.dropWhile_append_of_pos hbracket,
    List.takeWhile_cons_of_neg (by decide), List.dropWhile_cons_of_neg (by decide),
    List.append_nil, dropComma_withCommas h, List.drop_one, List.tail_cons]

/-- Names that are added one after the other if they are allowed and not there yet. -/
theorem foldlM_distinct {f : List Char → String} {allowed : List String} {e : String → String}
    {parts : List (List Char)} {out names : List String}
    (h : parts.foldlM (fun out raw =>
      if f raw ∈ allowed then (.ok (if f raw ∈ out then out else out ++ [f raw]) : Except String _)
      else .error (e (f raw))) out = .ok names) :
    (∀ name ∈ parts.map f, name ∈ allowed) ∧
      names = out ++ ((parts.map f).filter (· ∉ out)).eraseDups := by
  induction parts generalizing out with
  | nil =>
      obtain rfl := Except.ok.inj h
      simp
  | cons raw parts ih =>
      rw [List.foldlM_cons] at h
      obtain ⟨next, hnext, h⟩ := Checks.bind_eq_ok.mp h
      obtain ⟨hallowed, rfl⟩ := ih h
      split_ifs at hnext with hmem hout
      · obtain rfl := Except.ok.inj hnext
        refine ⟨by simpa using ⟨hmem, by simpa using hallowed⟩, ?_⟩
        rw [List.map_cons, List.filter_cons_of_neg (by simpa using hout)]
      · obtain rfl := Except.ok.inj hnext
        refine ⟨by simpa using ⟨hmem, by simpa using hallowed⟩, ?_⟩
        -- what was added in front is left out behind it
        have hrest : ((parts.map f).filter (· ∉ out)).filter (fun b => !b == f raw) =
            (parts.map f).filter (· ∉ out ++ [f raw]) := by
          rw [List.filter_filter]
          refine List.filter_congr fun b _ => ?_
          by_cases hb : b = f raw <;> by_cases hbo : b ∈ out <;> simp [hb, hbo]
        rw [List.map_cons, List.filter_cons_of_pos (by simpa using hout), List.eraseDups_cons,
          hrest, List.append_assoc, List.singleton_append]

theorem validateCtStates_eq_ok {names : List String} (h : validateCtStates std value = .ok names) :
    (∀ name ∈ names, ValueWord name) ∧
      names = ((Text.split ',' value.toList).map fun raw =>
        std.lowercase (String.ofList (Text.trim raw))).eraseDups := by
  obtain ⟨hallowed, rfl⟩ := foldlM_distinct
    (f := fun raw => std.lowercase (String.ofList (Text.trim raw)))
    (e := ("invalid conntrack state " ++ ·)) h
  rw [List.nil_append, List.filter_eq_self.mpr (by simp)]
  exact ⟨fun name hname =>
    valueWord_of_mem (by decide) (hallowed name (List.mem_eraseDups.mp hname)), rfl⟩

/-! ### Every expression -/

theorem normalizeComparisonOp_eq_ok (h : normalizeComparisonOp op = .ok cmp) :
    decide (cmp = "!=") = decide (op = "!=") := by
  simp only [normalizeComparisonOp] at h
  split_ifs at h with heq hne hin
  · obtain rfl := Except.ok.inj h
    rcases heq with rfl | rfl <;> decide
  · obtain rfl := Except.ok.inj h
    rw [hne]
  · obtain rfl := Except.ok.inj h
    rw [hin]

theorem valueWord_of_validateInterfaceName (h : validateInterfaceName value = .ok name) :
    name = Text.trimSpace value ∧ ValueWord name := by
  simp only [validateInterfaceName] at h
  split_ifs at h with hbad
  obtain rfl := Except.ok.inj h
  simp only [not_or, not_not, List.all_eq_true, Bool.or_eq_true] at hbad
  refine ⟨rfl, fun hnil => hbad.1 (String.toList_inj.mp hnil), fun c hc => ?_⟩
  rcases hbad.2 c hc with h | h
  · exact isValueChar_of_isAlphanum h
  · obtain rfl | rfl | rfl : c = '-' ∨ c = '_' ∨ c = '.' := by simpa using h
    all_goals decide

theorem valueWord_of_validateL4Proto (h : validateL4Proto std value = .ok rhs) :
    rhs = std.lowercase (Text.trimSpace value) ∧ ValueWord rhs := by
  simp only [validateL4Proto] at h
  split_ifs at h with hmem
  obtain rfl := Except.ok.inj h
  exact ⟨rfl, valueWord_of_mem (by decide) hmem⟩

/-- The texts of a match, by the field that is matched. -/
inductive MatchText (std : Std) (field op value : String) : String → Prop
  | address {cmp rhs : String} (hfield : field ∈ addressFields)
      (hcmp : normalizeComparisonOp op = .ok cmp) (hrhs : validateIpOrCidr std value = .ok rhs) :
      MatchText std field op value (renderValueMatch field cmp rhs)
  | port {cmp rhs : String} (hfield : field ∈ portFields)
      (hcmp : normalizeComparisonOp op = .ok cmp) (hrhs : validatePortExpr value = .ok rhs) :
      MatchText std field op value (renderValueMatch field cmp rhs)
  | proto {cmp rhs : String} (hfield : field = "meta l4proto")
      (hcmp : normalizeComparisonOp op = .ok cmp) (hrhs : validateL4Proto std value = .ok rhs) :
      MatchText std field op value (renderValueMatch field cmp rhs)
  | interface {cmp rhs : String} (hfield : field ∈ ["iifname", "oifname"])
      (hcmp : normalizeComparisonOp op = .ok cmp) (hrhs : validateInterfaceName value = .ok rhs) :
      MatchText std field op value (renderValueMatch field cmp ("\"" ++ rhs ++ "\""))
  | states {names : List String} (hfield : field = "ct state")
      (hnames : validateCtStates std value = .ok names) :
      MatchText std field op value ("ct state \x7b " ++ ", ".intercalate names ++ " \x7d")

theorem of_bind_bind_eq_ok {a b : Except String String} {f : String → String → String}
    (h : (do let x ← a; let y ← b; return f x y) = .ok text) :
    ∃ x y, a = .ok x ∧ b = .ok y ∧ f x y = text := by
  obtain ⟨x, hx, h⟩ := Checks.bind_eq_ok.mp h
  obtain ⟨y, hy, h⟩ := Checks.bind_eq_ok.mp h
  exact ⟨x, y, hx, hy, Except.ok.inj h⟩

theorem matchText_of_renderMatchExpr {left right : String}
    (h : renderMatchExpr std left op right = .ok text) :
    MatchText std (std.lowercase (Text.trimSpace left)) (std.lowercase (Text.trimSpace op))
      (Text.trimSpace right) text := by
  unfold renderMatchExpr at h
  dsimp only at h
  generalize std.lowercase (Text.trimSpace left) = field at h ⊢
  generalize std.lowercase (Text.trimSpace op) = op at h ⊢
  generalize Text.trimSpace right = value at h ⊢
  obtain ⟨-, h⟩ := Checks.ite_throw_bind_eq_ok.mp h
  by_cases haddress : field ∈ ["ip saddr", "ip daddr", "ip6 saddr", "ip6 daddr"]
  · rw [if_pos haddress] at h
    obtain ⟨cmp, rhs, hcmp, hrhs, rfl⟩ := of_bind_bind_eq_ok h
    exact .address haddress hcmp hrhs
  rw [if_neg haddress] at h
  by_cases hport : field ∈ ["tcp dport", "udp dport"]
  · rw [if_pos hport] at h
    obtain ⟨cmp, rhs, hcmp, hrhs, rfl⟩ := of_bind_bind_eq_ok h
    exact .port hport hcmp hrhs
  rw [if_neg hport] at h
  by_cases hproto : field = "meta l4proto"
  · rw [if_pos hproto] at h
    obtain ⟨cmp, rhs, hcmp, hrhs, rfl⟩ := of_bind_bind_eq_ok h
    exact .proto hproto hcmp hrhs
  rw [if_neg hproto] at h
  by_cases hinterface : field ∈ ["iifname", "oifname"]
  · rw [if_pos hinterface] at h
    obtain ⟨cmp, rhs, hcmp, hrhs, rfl⟩ := of_bind_bind_eq_ok h
    exact .interface hinterface hcmp hrhs
  rw [if_neg hinterface] at h
  by_cases hstate : field = "ct state"
  · rw [if_pos hstate] at h
    obtain ⟨-, h⟩ := Checks.ite_throw_bind_eq_ok.mp h
    obtain ⟨names, hnames, h⟩ := Checks.bind_eq_ok.mp h
    obtain rfl := Except.ok.inj h
    exact .states hstate hnames
  rw [if_neg hstate] at h
  cases h

/-- What a match of a field with a plain value means. -/
theorem matchStatement_field {negated : Bool} (hfield : field ∈ addressFields ++ portFields) :
    matchStatement std field negated value = readField field negated value := by
  have hne : field ∉ ["iifname", "oifname"] ∧ field ≠ "ct state" ∧ field ≠ "meta l4proto" := by
    simp only [addressFields, portFields, List.cons_append, List.nil_append, List.mem_cons,
      List.not_mem_nil, or_false] at hfield
    rcases hfield with rfl | rfl | rfl | rfl | rfl | rfl
    all_goals decide
  rw [matchStatement, if_neg hne.1, if_neg hne.2.1, if_neg hne.2.2]

theorem readField_address {negated : Bool} {a : IpText.Addr × Option ℕ}
    (hfield : field ∈ addressFields)
    (h : readCidr value = some a) : readField field negated value = some
      (.address field negated a.1 a.2) := by
  rw [readField, if_pos hfield, h, Option.map_some]

theorem readField_port {negated : Bool} {p : ℕ × Option ℕ} (hfield : field ∈ portFields)
    (h : readPorts value = some p) : readField field negated value = some
      (.port field negated p.1 p.2) := by
  have hne : field ∉ addressFields := by
    simp only [portFields, List.mem_cons, List.not_mem_nil, or_false] at hfield
    rcases hfield with rfl | rfl <;> decide
  rw [readField, if_neg hne, if_pos hfield, h, Option.map_some]

/-- A printed match is read as what was asked for. -/
theorem readsTo_renderMatchExpr (hstd : std.Documented) {left right : String}
    (h : renderMatchExpr std left op right = .ok text) :
    ∃ s, (Expr.matchField left op right).statement std = some s ∧ ReadsTo s.distinct text := by
  cases matchText_of_renderMatchExpr h with
  | address hfield hcmp hrhs =>
      obtain ⟨hword, a, hvalue, hread⟩ := readCidr_of_validateIpOrCidr hstd hrhs
      have hmem := List.mem_append_left portFields hfield
      refine ⟨_, (matchStatement_field hmem).trans (readField_address hfield hvalue), ?_⟩
      rw [← normalizeComparisonOp_eq_ok hcmp]
      exact readsTo_field (List.mem_append_left _ hmem) hword (readField_address hfield hread)
  | port hfield hcmp hrhs =>
      obtain ⟨hword, p, hvalue, hread⟩ := readPorts_of_validatePortExpr hrhs
      have hmem := List.mem_append_right addressFields hfield
      refine ⟨_, (matchStatement_field hmem).trans (readField_port hfield hvalue), ?_⟩
      rw [← normalizeComparisonOp_eq_ok hcmp]
      exact readsTo_field (List.mem_append_left _ hmem) hword (readField_port hfield hread)
  | proto hfield hcmp hrhs =>
      obtain ⟨rfl, hword⟩ := valueWord_of_validateL4Proto hrhs
      rw [Text.trimSpace_trimSpace] at hword ⊢
      refine ⟨.proto (decide (std.lowercase (Text.trimSpace op) = "!="))
        (std.lowercase (Text.trimSpace right)), ?_, ?_⟩
      · rw [Expr.statement, hfield]
        rfl
      · rw [← normalizeComparisonOp_eq_ok hcmp, hfield]
        exact readsTo_field (by decide) hword rfl
  | interface hfield hcmp hrhs =>
      obtain ⟨rfl, hword⟩ := valueWord_of_validateInterfaceName hrhs
      rw [Text.trimSpace_trimSpace] at hword ⊢
      refine ⟨_, if_pos hfield, ?_⟩
      rw [← normalizeComparisonOp_eq_ok hcmp]
      exact readsTo_interface hfield hword
  | states hfield hnames =>
      obtain ⟨hwords, heq⟩ := validateCtStates_eq_ok hnames
      refine ⟨.states ((Text.split ',' (Text.trimSpace right).toList).map fun raw =>
        std.lowercase (String.ofList (Text.trim raw))), ?_, ?_⟩
      · rw [Expr.statement, hfield]
        rfl
      · rw [Statement.distinct, ← heq]
        exact readsTo_states hwords

theorem readsTo_renderExpr (hstd : std.Documented) {e : Expr} (h : renderExpr std e = .ok text) :
    ∃ s, e.statement std = some s ∧ ReadsTo s.distinct text := by
  cases e with
  | matchField left op right => exact readsTo_renderMatchExpr hstd h
  | counter =>
      obtain rfl := Except.ok.inj h
      exact ⟨.counter, rfl, by decide, by decide, fun _ => rfl⟩
  | accept =>
      obtain rfl := Except.ok.inj h
      exact ⟨.accept, rfl, by decide, by decide, fun _ => rfl⟩
  | drop =>
      obtain rfl := Except.ok.inj h
      exact ⟨.drop, rfl, by decide, by decide, fun _ => rfl⟩
  | jump target =>
      rw [renderExpr] at h
      split_ifs at h with hsafe
      obtain rfl := Except.ok.inj h
      have hword := valueWord_of_isSafeIdent hsafe
      have hkey : "jump " = "jump" ++ " " := rfl
      have hwords : Text.words ("jump " ++ target) = ["jump", target] := by
        rw [hkey, Text.words_head (w := "jump") (by decide), hword.word.words_eq]
      refine ⟨.jump target, rfl, (show Marked [] "jump " by decide).append hword.marked,
        by simp [hwords], fun rest => ?_⟩
      rw [hwords]
      rfl

end Expressions

/-! ## Printed rules -/

section Rules
variable {std : Std} {exprs : List Expr} {text : String} {statements : List Statement}
    {texts : List String}

theorem marks_distinct (s : Statement) : s.distinct.marks = s.marks := by
  cases s <;> rfl

theorem readStatements_cons (n : ℕ) (word : String) (rest : List String) :
    readStatements (n + 1) (word :: rest) = (readStatement (word :: rest)).bind fun p =>
      (readStatements n p.2).map (p.1 :: ·) := rfl

/-- Statements that are printed one after the other are read one after the other. -/
theorem readStatements_flatMap (h : List.Forall₂ ReadsTo statements texts) {n : ℕ}
    (hn : statements.length ≤ n) : readStatements n
      (texts.flatMap Text.words) = some statements := by
  induction h generalizing n with
  | nil => cases n <;> rfl
  | @cons s t statements texts hs _ ih =>
      cases n with
      | zero => cases hn
      | succ n =>
          obtain ⟨w, ws, hwords⟩ := List.exists_cons_of_ne_nil hs.ne_nil
          have hstep : readStatements (n + 1) (Text.words t ++ texts.flatMap Text.words) =
              (readStatement (Text.words t ++ texts.flatMap Text.words)).bind fun p =>
                (readStatements n p.2).map (p.1 :: ·) := by
            rw [hwords]
            exact readStatements_cons n w _
          rw [List.flatMap_cons, hstep, hs.read, Option.bind_some, ih (Nat.le_of_succ_le_succ hn),
            Option.map_some]

theorem length_le_flatMap (h : List.Forall₂ ReadsTo statements texts) :
    statements.length ≤ (texts.flatMap Text.words).length := by
  induction h with
  | nil => exact le_rfl
  | cons hs _ ih =>
      have hpos := List.length_pos_iff.mpr hs.ne_nil
      rw [List.flatMap_cons, List.length_append, List.length_cons]
      omega

/-- The line of a rule. -/
structure RuleLine (std : Std) (exprs : List Expr) (line : String) : Prop where
  read : ∃ statements, exprs.mapM (Expr.statement std) = some statements ∧
    readRule line = some (statements.map Statement.distinct) ∧
    specials line = statements.flatMap Statement.marks
  printable : Interfaces.Printable line

theorem words_indent (t : String) : Text.words ("    " ++ t) = Text.words t := by
  have hindent : "    " = "   " ++ " " := rfl
  rw [hindent, Text.words_space]
  rfl

theorem Expr.mapM_statement
    (h : List.Forall₂ (fun e s => e.statement std = some s) exprs statements) :
    exprs.mapM (Expr.statement std) = some statements := by
  induction h with
  | nil => rfl
  | cons he _ ih =>
      rw [List.mapM_cons, he, ih]
      rfl

theorem exists_statements (hstd : std.Documented)
    (h : List.Forall₂ (fun e t => renderExpr std e = .ok t) exprs texts) :
    ∃ statements : List Statement,
      List.Forall₂ (fun e s => e.statement std = some s) exprs statements ∧
      List.Forall₂ ReadsTo (statements.map Statement.distinct) texts := by
  induction h with
  | nil => exact ⟨[], .nil, .nil⟩
  | cons he _ ih =>
      obtain ⟨s, hs, hreads⟩ := readsTo_renderExpr hstd he
      obtain ⟨statements, hstatements, hread⟩ := ih
      exact ⟨s :: statements, .cons hs hstatements, .cons hreads hread⟩

/-- A printed rule is read as what was asked for. -/
theorem ruleLine_of_renderExprs (hstd : std.Documented) (h : renderExprs std exprs = .ok text) :
    RuleLine std exprs ("    " ++ text) := by
  obtain ⟨texts, htexts, h⟩ := Checks.bind_eq_ok.mp h
  obtain rfl := Except.ok.inj h
  obtain ⟨statements, hstatements, hread⟩ := exists_statements hstd (Checks.mapM_eq_ok.mp htexts)
  have hmarked := (show Marked [] "    " by decide).append
    (Marked.intercalate (show Marked [] " " by decide) (hread.imp fun _ _ hs => hs.toMarked))
  refine ⟨⟨statements, Expr.mapM_statement hstatements, ?_, ?_⟩, hmarked.printable⟩
  · rw [readRule, words_indent, Text.words_intercalate]
    exact readStatements_flatMap hread (length_le_flatMap hread)
  · rw [hmarked.marks, List.nil_append, List.flatMap_map]
    exact List.flatMap_congr fun s _ => marks_distinct s

/-- The line of a rule of the isolation table. -/
theorem ruleLine_isolation {a value : String} (hstd : std.Documented)
    (h : validateIpOrCidr std value = .ok a) : ∃ ip len, readCidr value = some (ip, len) ∧
      readRule ("    " ++ ("ip saddr " ++ a ++ " tcp dport 22 accept")) =
        some [.address "ip saddr" false ip len, .port "tcp dport" false 22 none, .accept] ∧
      Marked [] ("    " ++ ("ip saddr " ++ a ++ " tcp dport 22 accept")) := by
  obtain ⟨hword, ⟨ip, len⟩, hvalue, hread⟩ := readCidr_of_validateIpOrCidr hstd h
  have hsplit : "ip saddr " ++ a ++ " tcp dport 22 accept" =
      "ip saddr" ++ " " ++ (a ++ " " ++ "tcp dport 22 accept") := by
    rw [← String.toList_inj]
    simp [String.toList_append]
  have hstart : Text.words "ip saddr" = ["ip", "saddr"] := by decide
  have hend : Text.words "tcp dport 22 accept" = ["tcp", "dport", "22", "accept"] := by decide
  have hwords : Text.words ("    " ++ ("ip saddr " ++ a ++ " tcp dport 22 accept")) =
      ["ip", "saddr", a, "tcp", "dport", "22", "accept"] := by
    rw [words_indent, hsplit, Text.words_space, Text.words_head hword.word.words_eq, hstart, hend]
    rfl
  refine ⟨ip, len, hvalue, ?_, (show Marked [] "    " by decide).append (hword.between
    (show Marked [] "ip saddr " by decide) (show Marked [] " tcp dport 22 accept" by decide))⟩
  have hfield : readField "ip saddr" false a = some (.address "ip saddr" false ip len) := by
    rw [readField, if_pos (by decide), hread, Option.map_some]
  have hfirst : readStatement ["ip", "saddr", a, "tcp", "dport", "22", "accept"] =
      some (.address "ip saddr" false ip len, ["tcp", "dport", "22", "accept"]) := by
    have hdispatch : readStatement ["ip", "saddr", a, "tcp", "dport", "22", "accept"] =
        readValue (readField "ip saddr") [a, "tcp", "dport", "22", "accept"] := rfl
    rw [hdispatch, readValue, if_neg hword.ne_negation, hfield, Option.map_some]
  have hrest : readStatements 6 ["tcp", "dport", "22", "accept"] =
      some [.port "tcp dport" false 22 none, .accept] := by decide
  rw [readRule, hwords]
  show readStatements 7 _ = _
  rw [readStatements_cons, hfirst, Option.bind_some, hrest, Option.map_some]

end Rules

/-! ## Lines of a file -/

section Lines
variable {cfg : Config} {std : Std} {rs : RuleSet} {allow : List String} {rendered : List Line}

theorem toList_fileText (lines : List Line) :
    (fileText lines).toList = Interfaces.joinLines (lines.map Line.text) := by
  rw [fileText, String.toList_join, Interfaces.joinLines, List.flatMap_map, List.flatMap_map]
  exact List.flatMap_congr fun line _ => String.toList_append ..

theorem lines_fileText (h : ∀ line ∈ rendered, Interfaces.Printable line.text) :
    Text.lines (fileText rendered).toList = rendered.map fun line => line.text.toList := by
  rw [toList_fileText, Interfaces.lines_joinLines, List.map_map]
  · rfl
  · intro line hline
    obtain ⟨l, hl, rfl⟩ := List.mem_map.mp hline
    exact h l hl

/-- The text of a rule. -/
def ruleText (std : Std) (r : Rule) : String :=
  match renderExprs std r.expr with
  | .ok text => text
  | .error _ => ""

def ruleLine (std : Std) (r : Rule) : String := "    " ++ ruleText std r

/-- The line with the hook of a chain, if it has one. -/
def hookLine (c : Chain) : List String :=
  match c.hook with
  | none => []
  | some hook => ["    type " ++ c.chainType.getD "" ++ " hook " ++ hook ++ " priority " ++
      toString (c.priority.getD 0) ++ "; policy " ++ c.policy.getD "accept" ++ ";"]

/-- The lines of a chain with its rules. -/
def chainLines (std : Std) (rs : RuleSet) (c : Chain) : List String :=
  ("  chain " ++ c.name ++ " \x7b") :: hookLine c ++
    (rs.rules.filter fun r => r.chain = c.name).map (ruleLine std) ++ ["  \x7d"]

/-- The lines of the managed table. -/
def tableLines (std : Std) (rs : RuleSet) : List String :=
  ("table " ++ rs.family ++ " " ++ rs.table ++ " \x7b") :: rs.chains.flatMap (chainLines std rs) ++
    ["\x7d"]

theorem forall_mem_tableLines {p : String → Prop} :
    (∀ line ∈ tableLines std rs, p line) ↔
      p ("table " ++ rs.family ++ " " ++ rs.table ++ " \x7b") ∧
      (∀ c ∈ rs.chains, p ("  chain " ++ c.name ++ " \x7b") ∧ (∀ line ∈ hookLine c, p line) ∧
        (∀ r ∈ rs.rules, r.chain = c.name → p (ruleLine std r)) ∧ p "  \x7d") ∧ p "\x7d" := by
  simp only [tableLines, chainLines, List.cons_append, List.append_assoc, List.forall_mem_cons,
    List.forall_mem_append, List.forall_mem_flatMap, List.forall_mem_map, List.mem_filter,
    List.not_mem_nil, decide_eq_true_eq, and_imp, false_imp_iff, implies_true, and_true]

/-! ### Checked chains -/

/-- What the checks leave of a chain: values without special characters, and a type with each
hook. -/
structure CheckedChain (c : Chain) : Prop where
  name : ValueWord c.name
  together : c.chainType.isSome = c.hook.isSome
  chainType : ∀ t, c.chainType = some t → ValueWord t
  hook : ∀ h, c.hook = some h → ValueWord h
  policy : ValueWord (c.policy.getD "accept")

theorem checkedChain_of_validateChain {c : Chain} (h : validateChain c = .ok ()) :
    CheckedChain c := by
  unfold validateChain at h
  dsimp only at h
  obtain ⟨hname, h⟩ := Checks.ite_throw_bind_eq_ok.mp h
  obtain ⟨htogether, h⟩ := Checks.ite_throw_bind_eq_ok.mp h
  have hpolicy : ∀ p : Option String, (∀ policy, p = some policy → policy ∈ ["accept", "drop"]) →
      ValueWord (p.getD "accept") := by
    intro p hp
    cases p with
    | none => exact ⟨by decide, by simp [isValueChar]⟩
    | some policy => exact valueWord_of_mem (by decide) (hp policy rfl)
  obtain ⟨name, chainType, hook, priority, policy⟩ := c
  dsimp only at h hname htogether
  have hident := valueWord_of_isSafeIdent (not_not.mp hname)
  cases chainType with
  | none => cases hook with
    | none =>
        refine ⟨hident, rfl, nofun, nofun, hpolicy policy ?_⟩
        rintro p rfl
        exact not_not.mp (Checks.ite_throw_eq_ok.mp h).1
    | some hook => exact absurd Bool.noConfusion htogether
  | some chainType =>
      obtain ⟨htype, h⟩ := Checks.ite_throw_bind_eq_ok.mp h
      have htypeWord : ValueWord chainType := valueWord_of_mem (by decide) (not_not.mp htype)
      cases hook with
      | none => exact absurd Bool.noConfusion htogether
      | some hook =>
          obtain ⟨hhook, h⟩ := Checks.ite_throw_bind_eq_ok.mp h
          obtain ⟨-, h⟩ := Checks.ite_throw_bind_eq_ok.mp h
          have hhookWord : ValueWord hook := valueWord_of_mem (by decide) (not_not.mp hhook)
          refine ⟨hident, rfl, fun t ht => Option.some.inj ht ▸ htypeWord,
            fun k hk => Option.some.inj hk ▸ hhookWord, hpolicy policy ?_⟩
          rintro p rfl
          exact not_not.mp (Checks.ite_throw_eq_ok.mp h).1

/-- What the checks leave of a ruleset. -/
theorem of_ensureRulesetTarget (h : ensureRulesetTarget rs = .ok ()) :
    ValueWord rs.family ∧ ValueWord rs.table ∧ ∀ c ∈ rs.chains, CheckedChain c := by
  unfold ensureRulesetTarget at h
  dsimp only at h
  obtain ⟨-, h⟩ := Checks.ite_throw_bind_eq_ok.mp h
  obtain ⟨hfamily, h⟩ := Checks.ite_throw_bind_eq_ok.mp h
  obtain ⟨htable, h⟩ := Checks.ite_throw_bind_eq_ok.mp h
  exact ⟨valueWord_of_mem (by decide) (not_not.mp hfamily),
    valueWord_of_isSafeIdent (not_not.mp htable),
    fun c hc => checkedChain_of_validateChain (Checks.forM_eq_ok.mp h c hc)⟩

/-! ### The lines of a ruleset -/

/-- The rules of a ruleset with their texts. -/
def ruleTexts (std : Std) (rs : RuleSet) : List (String × String) :=
  rs.rules.map fun r => (r.chain, ruleText std r)

theorem ruleText_eq {r : Rule} {text : String} (h : renderExprs std r.expr = .ok text) :
    ruleText std r = text := by
  rw [ruleText, h]

theorem mapM_renderRule {declared : List String} {rules : List Rule}
    {texts : List (String × String)}
    (h : List.Forall₂ (fun r t => renderRule std declared r = .ok t) rules texts) :
    texts = rules.map (fun r => (r.chain, ruleText std r)) ∧
      ∀ r ∈ rules, r.chain ∈ declared ∧ renderExprs std r.expr = .ok (ruleText std r) := by
  induction h with
  | nil => exact ⟨rfl, nofun⟩
  | cons hr _ ih =>
      obtain ⟨htexts, hrules⟩ := ih
      rw [renderRule] at hr
      split_ifs at hr with hdeclared
      obtain ⟨text, htext, hr⟩ := Checks.bind_eq_ok.mp hr
      obtain rfl := Except.ok.inj hr
      have heq := ruleText_eq htext
      rw [List.map_cons, heq, ← htexts]
      exact ⟨rfl, List.forall_mem_cons.mpr ⟨⟨hdeclared, by rw [heq]; exact htext⟩, hrules⟩⟩

theorem of_renderRuleset (h : renderRuleset cfg std rs allow = .ok rendered) :
    ∃ isolation, renderIsolationTable cfg std allow = .ok isolation ∧
      rendered = isolation ++ [Line.blank, .table rs.family rs.table] ++
        rs.chains.flatMap (renderChain (ruleTexts std rs)) ++ [Line.endTable] ∧
      ∀ r ∈ rs.rules, r.chain ∈ rs.chains.map Chain.name ∧
        renderExprs std r.expr = .ok (ruleText std r) := by
  simp only [renderRuleset, Checks.bind_eq_ok] at h
  obtain ⟨rules, hrules, isolation, hisolation, hrendered⟩ := h
  obtain ⟨rfl, hall⟩ := mapM_renderRule (Checks.mapM_eq_ok.mp hrules)
  exact ⟨isolation, hisolation, (Except.ok.inj hrendered).symm, hall⟩

theorem text_baseChain (chainType hook policy : String) (priority : Int) :
    (Line.baseChain chainType hook priority (some policy)).text = "    type " ++ chainType ++
      " hook " ++ hook ++ " priority " ++ toString priority ++ "; policy " ++ policy ++ ";" := by
  have htext : (Line.baseChain chainType hook priority (some policy)).text = "    type " ++
      chainType ++ " hook " ++ hook ++ " priority " ++ toString priority ++ ";" ++
        (" policy " ++ policy ++ ";") := rfl
  have hpolicy : "; policy " = ";" ++ " policy " := rfl
  simp only [htext, hpolicy, String.append_assoc]

theorem text_rules (name : String) :
    (((ruleTexts std rs).filter fun r => r.1 = name).map fun r => Line.rule r.2).map Line.text =
      (rs.rules.filter fun r => r.chain = name).map (ruleLine std) := by
  rw [ruleTexts, List.filter_map, List.map_map, List.map_map]
  rfl

/-- The lines of a checked chain. -/
theorem text_renderChain {c : Chain} (hc : CheckedChain c) :
    (renderChain (ruleTexts std rs) c).map Line.text = chainLines std rs c := by
  have htogether := hc.together
  rw [chainLines, hookLine]
  cases htype : c.chainType with
  | none => cases hhook : c.hook with
    | none =>
        simp only [renderChain, htype, hhook, List.map_append, text_rules]
        rfl
    | some hook => rw [htype, hhook] at htogether; cases htogether
  | some chainType => cases hhook : c.hook with
    | none => rw [htype, hhook] at htogether; cases htogether
    | some hook =>
        simp only [renderChain, htype, hhook, List.map_append, List.map_cons, text_rules,
          text_baseChain, Option.getD_some]
        rfl

theorem text_rendered (htarget : ∀ c ∈ rs.chains, CheckedChain c) (isolation : List Line) :
    (isolation ++ [Line.blank, .table rs.family rs.table] ++
      rs.chains.flatMap (renderChain (ruleTexts std rs)) ++ [Line.endTable]).map Line.text =
    isolation.map Line.text ++ "" :: tableLines std rs := by
  have hchains : (rs.chains.flatMap (renderChain (ruleTexts std rs))).map Line.text =
      rs.chains.flatMap (chainLines std rs) := by
    rw [List.map_flatMap]
    exact List.flatMap_congr fun c hc => text_renderChain (htarget c hc)
  rw [List.map_append, List.map_append, List.map_append, hchains, tableLines, List.append_assoc,
    List.append_assoc]
  rfl

/-! ### Characters of the lines -/

theorem valueWord_toString_int (n : Int) : ValueWord (toString n) := by
  cases n with
  | ofNat n => exact valueWord_toString n
  | negSucc n =>
      have hlist : (toString (Int.negSucc n)).toList = '-' :: (toString (n + 1)).toList := by
        rw [show toString (Int.negSucc n) = "-" ++ toString (n + 1) from rfl, String.toList_append]
        rfl
      refine ⟨by rw [hlist]; exact List.cons_ne_nil _ _, fun c hc => ?_⟩
      rw [hlist, List.mem_cons] at hc
      rcases hc with rfl | hc
      · decide
      · exact (valueWord_toString (n + 1)).chars c hc

/-- The line with the hook of a checked chain has words for the type and the hook. -/
theorem exists_of_mem_hookLine {c : Chain} (hc : CheckedChain c) {line : String}
    (hline : line ∈ hookLine c) : ∃ chainType hook, ValueWord chainType ∧ ValueWord hook ∧
      line = "    type " ++ chainType ++ " hook " ++ hook ++ " priority " ++
        toString (c.priority.getD 0) ++ "; policy " ++ c.policy.getD "accept" ++ ";" := by
  rw [hookLine] at hline
  cases hhook : c.hook with
  | none => rw [hhook] at hline; cases hline
  | some hook =>
      have htogether := hc.together
      rw [hhook] at hline htogether
      obtain ⟨chainType, htype⟩ := Option.isSome_iff_exists.mp htogether
      rw [htype] at hline
      exact ⟨chainType, hook, hc.chainType _ htype, hc.hook _ hhook, List.mem_singleton.mp hline⟩

/-- A line of values in a template has the special characters of the template. -/
theorem hookLine_chars {c : Chain} (hc : CheckedChain c) :
    ∀ line ∈ hookLine c, Marked [';', ';'] line := by
  intro line hline
  obtain ⟨chainType, hook, htype, hhook, rfl⟩ := exists_of_mem_hookLine hc hline
  have htypeMarked := htype.between
    (show Marked [] "    type " by decide) (show Marked [] " hook " by decide)
  have hhookMarked := hhook.between htypeMarked (show Marked [] " priority " by decide)
  exact hc.policy.between ((valueWord_toString_int _).between hhookMarked
    (show Marked [';'] "; policy " by decide)) (show Marked [';'] ";" by decide)

theorem chainHeader_chars {c : Chain} (hc : CheckedChain c) :
    Marked ['\x7b'] ("  chain " ++ c.name ++ " \x7b") :=
  hc.name.between (show Marked [] "  chain " by decide) (show Marked ['\x7b'] " \x7b" by decide)

theorem tableHeader_chars (hfamily : ValueWord rs.family) (htable : ValueWord rs.table) :
    Marked ['\x7b'] ("table " ++ rs.family ++ " " ++ rs.table ++ " \x7b") :=
  htable.between (hfamily.between (show Marked [] "table " by decide)
    (show Marked [] " " by decide)) (show Marked ['\x7b'] " \x7b" by decide)

/-- The isolation table has the special characters of its template. -/
theorem isolation_chars {isolation : List Line} (hstd : std.Documented)
    (h : renderIsolationTable cfg std allow = .ok isolation) :
    isolation.flatMap (fun line => specials line.text) = ['\x7b', '\x7b', ';', ';', '\x7d',
      '\x7d'] ∧
      ∀ line ∈ isolation, Interfaces.Printable line.text := by
  rw [renderIsolationTable] at h
  obtain ⟨addresses, haddresses, h⟩ := Checks.bind_eq_ok.mp h
  obtain rfl := Except.ok.inj h
  have hrule : ∀ a ∈ addresses,
      Marked [] (Line.rule ("ip saddr " ++ a ++ " tcp dport 22 accept")).text := by
    intro a ha
    obtain ⟨value, -, hvalue⟩ := Checks.exists_of_mem_mapM haddresses ha
    obtain ⟨-, -, -, -, hmarked⟩ := ruleLine_isolation hstd hvalue
    exact hmarked
  have hrules : (addresses.map fun a => Line.rule
    ("ip saddr " ++ a ++ " tcp dport 22 accept")).flatMap
      (fun line => specials line.text) = [] := by
    rw [List.flatMap_map]
    exact List.flatMap_eq_nil_iff.mpr fun a ha => (hrule a ha).marks
  refine ⟨?_, fun line hline => ?_⟩
  · rw [List.flatMap_append, List.flatMap_append, hrules]
    cases cfg.defaultDropInput <;> decide +kernel
  · rw [List.mem_append, List.mem_append] at hline
    rcases hline with (hline | hline) | hline
    · revert line
      cases cfg.defaultDropInput <;> decide +kernel
    · obtain ⟨a, ha, rfl⟩ := List.mem_map.mp hline
      exact (hrule a ha).printable
    · revert line
      decide

theorem printable_tableLines (hstd : std.Documented) (htarget : ensureRulesetTarget rs = .ok ())
    (hrules : ∀ r ∈ rs.rules, renderExprs std r.expr = .ok (ruleText std r)) :
    ∀ line ∈ tableLines std rs, Interfaces.Printable line := by
  obtain ⟨hfamily, htable, hchains⟩ := of_ensureRulesetTarget htarget
  refine forall_mem_tableLines.mpr ⟨(tableHeader_chars hfamily htable).printable,
    fun c hc => ⟨(chainHeader_chars (hchains c hc)).printable,
      fun line hline => (hookLine_chars (hchains c hc) line hline).printable,
      fun r hr _ => (ruleLine_of_renderExprs hstd (hrules r hr)).printable, by decide⟩, by decide⟩

/-! ## The rendered file -/

/-- The lines of the file. -/
theorem lines_of_renderRuleset (hstd : std.Documented) (htarget : ensureRulesetTarget rs = .ok ())
    (h : renderRuleset cfg std rs allow = .ok rendered) :
    (∃ isolation, renderIsolationTable cfg std allow = .ok isolation ∧
      Text.lines (fileText rendered).toList =
        (isolation.map Line.text ++ "" :: tableLines std rs).map String.toList) ∧
    ∀ r ∈ rs.rules, r.chain ∈ rs.chains.map Chain.name ∧
      renderExprs std r.expr = .ok (ruleText std r) := by
  obtain ⟨-, -, hchains⟩ := of_ensureRulesetTarget htarget
  obtain ⟨isolation, hisolation, rfl, hrules⟩ := of_renderRuleset h
  have htexts := @text_rendered std rs hchains isolation
  obtain ⟨-, hprintable⟩ := isolation_chars hstd hisolation
  refine ⟨⟨isolation, hisolation, ?_⟩, hrules⟩
  rw [lines_fileText, ← htexts, List.map_map]
  · rfl
  · intro line hline
    have hmem := List.mem_map_of_mem (f := Line.text) hline
    rw [htexts, List.mem_append, List.mem_cons] at hmem
    rcases hmem with hmem | hmem | hmem
    · obtain ⟨l, hl, heq⟩ := List.mem_map.mp hmem
      exact heq ▸ hprintable l hl
    · rw [hmem]
      nofun
    · exact printable_tableLines hstd htarget (fun r hr => (hrules r hr).2) _ hmem

/-- The file is the isolation table, an empty line, and the managed table with the chains and the
rules as they were listed; each rule is read as what was asked for, with each conntrack state once;
and only the templates have special characters. -/
theorem fileText_reads_back (hstd : std.Documented) (htarget : ensureRulesetTarget rs = .ok ())
    (h : renderRuleset cfg std rs allow = .ok rendered) :
    (∃ isolation, renderIsolationTable cfg std allow = .ok isolation ∧
      Text.lines (fileText rendered).toList =
        (isolation.map Line.text ++ "" :: tableLines std rs).map String.toList ∧
      isolation.flatMap (fun line => specials line.text) = ['\x7b', '\x7b', ';', ';', '\x7d',
        '\x7d']) ∧
    (∀ r ∈ rs.rules, r.chain ∈ rs.chains.map Chain.name ∧
      ∃ statements, r.expr.mapM (Expr.statement std) = some statements ∧
        readRule (ruleLine std r) = some (statements.map Statement.distinct) ∧
        specials (ruleLine std r) = statements.flatMap Statement.marks) ∧
    specials ("table " ++ rs.family ++ " " ++ rs.table ++ " \x7b") = ['\x7b'] ∧
    ∀ c ∈ rs.chains, specials ("  chain " ++ c.name ++ " \x7b") = ['\x7b'] ∧
      ∀ line ∈ hookLine c, specials line = [';', ';'] := by
  obtain ⟨hfamily, htable, hchains⟩ := of_ensureRulesetTarget htarget
  obtain ⟨⟨isolation, hisolation, hlines⟩, hrules⟩ := lines_of_renderRuleset hstd htarget h
  refine ⟨⟨isolation, hisolation, hlines, (isolation_chars hstd hisolation).1⟩, ?_,
    (tableHeader_chars hfamily htable).marks, ?_⟩
  · intro r hr
    exact ⟨(hrules r hr).1, (ruleLine_of_renderExprs hstd (hrules r hr).2).read⟩
  · intro c hc
    exact ⟨(chainHeader_chars (hchains c hc)).marks,
      fun line hline => (hookLine_chars (hchains c hc) line hline).marks⟩

end Lines

/-! ## A repeated state -/

/-- Addresses as they are written, and words in lower case. -/
def echoStd : Std where
  parseIp s := (IpText.parse s.toList).map fun
    | .v4 _ => .v4 s
    | .v6 _ => .v6 s
  lowercase := id

theorem echoStd_documented : echoStd.Documented where
  parseIp s ip h := by
    obtain ⟨a, ha, rfl⟩ := Option.map_eq_some_iff.mp h
    cases a with
    | v4 n => exact ⟨.v4 n, ha, ha, rfl⟩
    | v6 n => exact ⟨.v6 n, ha, ha, rfl⟩
  lowercase _ _ := rfl

/-- A rule that lists a conntrack state twice. -/
def newTwice : RuleSet where
  revision := none
  family := "inet"
  table := "pmx-cloud"
  chains := [⟨"web", none, none, none, none⟩]
  rules := [⟨"web", [.matchField "ct state" "in" "new,new", .accept]⟩]

def isolationOf (drop : Bool) : List Line :=
  [.table "inet" "pmx-isolation", .chain "input", .baseChain "filter" "input" (-300) none,
    .chainPolicy (if drop then "drop" else "accept"), .rule "ct state established,related accept",
    .endChain, .endTable]

def newTwiceRendered : List Line :=
  isolationOf true ++ [.blank, .table "inet" "pmx-cloud", .chain "web",
    .rule "ct state \x7b new \x7d accept", .endChain, .endTable]

/-- The file has an empty line that is not of a table, and the rule has one state of the two. -/
theorem newTwice_not_read_back :
    (newTwice.chains.map Chain.name).Nodup ∧ (∀ r ∈ newTwice.rules, r.expr ≠ []) ∧
    ensureRulesetTarget newTwice = .ok () ∧
    renderRuleset plainConfig echoStd newTwice [] = .ok newTwiceRendered ∧
    renderIsolationTable plainConfig echoStd [] = .ok (isolationOf true) ∧
    Text.lines (fileText newTwiceRendered).toList ≠
      ((isolationOf true).map Line.text ++ tableLines echoStd newTwice).map String.toList ∧
    ∃ r ∈ newTwice.rules, readRule (ruleLine echoStd r) ≠ r.expr.mapM (Expr.statement echoStd) := by
  refine ⟨by decide, by decide, rfl, rfl, rfl, fun hlines => ?_, _,
    List.mem_singleton_self _, by decide⟩
  have hprintable : ∀ line ∈ newTwiceRendered, Interfaces.Printable line.text := by decide +kernel
  have hlength := congrArg List.length hlines
  rw [lines_fileText hprintable, List.length_map] at hlength
  exact absurd hlength (by decide)

theorem fileText_reads_back_newTwice :
    ensureRulesetTarget newTwice = .ok () ∧
    renderRuleset plainConfig echoStd newTwice [] = .ok newTwiceRendered ∧
    Text.lines (fileText newTwiceRendered).toList =
      ((isolationOf true).map Line.text ++ "" :: tableLines echoStd newTwice).map
        String.toList := by
  have hrendered : renderRuleset plainConfig echoStd newTwice [] = .ok newTwiceRendered := rfl
  have htarget : ensureRulesetTarget newTwice = .ok () := rfl
  obtain ⟨⟨isolation, hisolation, hlines, -⟩, -⟩ :=
    fileText_reads_back echoStd_documented htarget hrendered
  obtain rfl : isolationOf true = isolation := Except.ok.inj hisolation
  exact ⟨htarget, hrendered, hlines⟩

end PmxAgents.Network
