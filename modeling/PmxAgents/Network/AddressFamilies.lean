import PmxAgents.Network.RulesetText

/-!
# Address families of a rendered ruleset

A match on an address names the family in its field: `ip saddr` and `ip daddr` compare
with addresses of IPv4, `ip6 saddr` and `ip6 daddr` with those of IPv6. The field comes
from the request, or from the template of the isolation table and of the lockdown, and
the address is checked for either family.
-/

namespace PmxAgents.Network

open Lib

/-- The number of bits of the addresses that a field is compared with. -/
def fieldBits (field : String) : ℕ :=
  if field ∈ ["ip saddr", "ip daddr"] then 32 else 128

/-- An address match is of the family of its field. -/
def Statement.FamilyConsistent : Statement → Prop
  | .address field _ ip _ => ip.bits = fieldBits field
  | _ => True

instance (s : Statement) : Decidable s.FamilyConsistent :=
  match s with
  | .address field _ ip _ => inferInstanceAs (Decidable (ip.bits = fieldBits field))
  | .port .. | .proto .. | .interface .. | .states _ | .counter | .accept | .drop | .jump _ =>
      isTrue trivial

/-- The address matches of a line, if it is a rule. -/
def LineConsistent (line : String) : Prop :=
  ∀ statements, readRule line = some statements → ∀ s ∈ statements, s.FamilyConsistent

/-- The address matches of a file. -/
def FileConsistent (text : String) : Prop :=
  ∀ line ∈ Text.lines text.toList, LineConsistent (String.ofList line)

/-- An address or a prefix of IPv4. -/
def IsV4Cidr (value : String) : Prop := ∃ ip len, readCidr value = some (ip, len) ∧ ip.bits = 32

/-- An expression that compares the field of an address with one of the same family. -/
def Expr.FamilyConsistent (std : Std) : Expr → Prop
  | .matchField left _ right => std.lowercase (Text.trimSpace left) ∈ addressFields →
      ∃ ip len, readCidr (Text.trimSpace right) = some (ip, len) ∧
        ip.bits = fieldBits (std.lowercase (Text.trimSpace left))
  | _ => True

section Rules
variable {std : Std} {exprs : List Expr} {statements : List Statement} {line : String}

theorem lineConsistent_iff :
    LineConsistent line ↔ ∀ s ∈ (readRule line).getD [], s.FamilyConsistent := by
  rw [LineConsistent]
  cases readRule line with
  | none => exact iff_of_true nofun nofun
  | some statements =>
      refine ⟨fun h => h statements rfl, fun h read hread => ?_⟩
      rw [← Option.some.inj hread]
      exact h

instance (line : String) : Decidable (LineConsistent line) :=
  decidable_of_iff _ lineConsistent_iff.symm

theorem LineConsistent.of_none (h : readRule line = none) : LineConsistent line := by
  rw [lineConsistent_iff, h]
  nofun

theorem isV4Cidr_iff {value : String} {ip : IpText.Addr} {len : Option ℕ}
    (h : readCidr value = some (ip, len)) : IsV4Cidr value ↔ ip.bits = 32 := by
  constructor
  · rintro ⟨ip', len', h', hbits⟩
    rw [h] at h'
    obtain ⟨rfl, -⟩ := Prod.mk.inj (Option.some.inj h')
    exact hbits
  · exact fun hbits => ⟨ip, len, h, hbits⟩

theorem Statement.familyConsistent_distinct (s : Statement) :
    s.distinct.FamilyConsistent ↔ s.FamilyConsistent := by
  cases s <;> rfl

theorem readField_of_mem {field value : String} {negated : Bool} (hfield : field ∈ addressFields) :
    readField field negated value = (readCidr value).map fun a => .address field negated a.1 a.2 :=
  if_pos hfield

theorem not_address_of_readField {field value : String} {negated : Bool} {s : Statement}
    (hfield : field ∉ addressFields) (h : readField field negated value = some s) :
    s.FamilyConsistent := by
  rw [readField, if_neg hfield] at h
  split_ifs at h with hport hproto
  · obtain ⟨ports, -, rfl⟩ := Option.map_eq_some_iff.mp h
    trivial
  · obtain rfl := Option.some.inj h
    trivial

/-- What is read of an expression is of one family if the request is. -/
theorem familyConsistent_statement {e : Expr} {s : Statement} (h : e.statement std = some s) :
    s.FamilyConsistent ↔ e.FamilyConsistent std := by
  cases e with
  | matchField left op right =>
      rw [Expr.statement] at h
      rw [Expr.FamilyConsistent]
      generalize std.lowercase (Text.trimSpace left) = field at h ⊢
      by_cases hfield : field ∈ addressFields
      · rw [matchStatement_field (List.mem_append_left _ hfield), readField_of_mem hfield] at h
        obtain ⟨⟨ip, len⟩, hread, rfl⟩ := Option.map_eq_some_iff.mp h
        refine ⟨fun hbits _ => ⟨ip, len, hread, hbits⟩, fun hall => ?_⟩
        obtain ⟨ip', len', hread', hbits⟩ := hall hfield
        rw [hread] at hread'
        obtain ⟨rfl, -⟩ := Prod.mk.inj (Option.some.inj hread')
        exact hbits
      · refine iff_of_true ?_ fun hmem => absurd hmem hfield
        rw [matchStatement] at h
        split_ifs at h with hname hstate hproto
        · obtain rfl := Option.some.inj h
          trivial
        · obtain rfl := Option.some.inj h
          trivial
        · obtain rfl := Option.some.inj h
          trivial
        · exact not_address_of_readField hfield h
  | counter => obtain rfl := Option.some.inj h; exact Iff.rfl
  | accept => obtain rfl := Option.some.inj h; exact Iff.rfl
  | drop => obtain rfl := Option.some.inj h; exact Iff.rfl
  | jump target => obtain rfl := Option.some.inj h; exact Iff.rfl

theorem familyConsistent_mapM (h : exprs.mapM (Expr.statement std) = some statements) :
    (∀ s ∈ statements, s.FamilyConsistent) ↔ ∀ e ∈ exprs, e.FamilyConsistent std := by
  induction exprs generalizing statements with
  | nil =>
      obtain rfl : [] = statements := Option.some.inj h
      exact iff_of_true nofun nofun
  | cons e exprs ih =>
      rw [List.mapM_cons, Option.bind_eq_bind, Option.bind_eq_some_iff] at h
      obtain ⟨s, hs, h⟩ := h
      rw [Option.bind_eq_bind, Option.bind_eq_some_iff] at h
      obtain ⟨rest, hrest, h⟩ := h
      obtain rfl := Option.some.inj h
      rw [List.forall_mem_cons, List.forall_mem_cons, familyConsistent_statement hs, ih hrest]

/-- A line of a rule is of one family if the rule is. -/
theorem RuleLine.lineConsistent_iff (h : RuleLine std exprs line) :
    LineConsistent line ↔ ∀ e ∈ exprs, e.FamilyConsistent std := by
  obtain ⟨statements, hstatements, hread, -⟩ := h.read
  rw [Network.lineConsistent_iff, hread, Option.getD_some, List.forall_mem_map,
    ← familyConsistent_mapM hstatements]
  exact forall₂_congr fun s _ => s.familyConsistent_distinct

end Rules

/-! ## Lines that are not rules -/

section Headers
variable {cfg : Config} {std : Std} {rs : RuleSet} {allow : List String} {rendered : List Line}

/-- The words that a line of a table begins with when it is not a rule. -/
theorem readField_header {word part value : String} {negated : Bool}
    (hword : word ∈ ["table", "chain", "type"]) :
    readField (word ++ " " ++ part) negated value = none := by
  have hfields : word ++ " " ++ part ∉ addressFields ∧ word ++ " " ++ part ∉ portFields ∧
      word ++ " " ++ part ≠ "meta l4proto" := by
    simp only [List.mem_cons, List.not_mem_nil, or_false] at hword
    rcases hword with rfl | rfl | rfl
    all_goals simp [addressFields, portFields, ← String.toList_inj, String.toList_append]
  rw [readField, if_neg hfields.1, if_neg hfields.2.1, if_neg hfields.2.2]

theorem readRule_header {line word part value : String} {rest : List String}
    (hword : word ∈ ["table", "chain", "type"]) (hvalue : value ≠ "!=")
    (hwords : Text.words line = word :: part :: value :: rest) : readRule line = none := by
  have hstatement : readStatement (word :: part :: value :: rest) =
      readValue (readField (word ++ " " ++ part)) (value :: rest) := by
    simp only [List.mem_cons, List.not_mem_nil, or_false] at hword
    rcases hword with rfl | rfl | rfl <;> rfl
  have hread : readValue (readField (word ++ " " ++ part)) (value :: rest) =
      (readField (word ++ " " ++ part) false value).map (·, rest) := if_neg hvalue
  rw [readRule, hwords, List.length_cons, readStatements_cons, hstatement, hread,
    readField_header hword]
  rfl

theorem lineConsistent_tableHeader (hfamily : ValueWord rs.family) (htable : ValueWord rs.table) :
    LineConsistent ("table " ++ rs.family ++ " " ++ rs.table ++ " \x7b") := by
  have hsplit : "table " ++ rs.family ++ " " ++ rs.table ++ " \x7b" =
      "table" ++ " " ++ (rs.family ++ " " ++ (rs.table ++ " " ++ "\x7b")) := by
    simp only [show "table " = "table" ++ " " from rfl, show " \x7b" = " " ++ "\x7b" from rfl,
      String.append_assoc]
  have hwords : Text.words ("table " ++ rs.family ++ " " ++ rs.table ++ " \x7b") =
      "table" :: rs.family :: rs.table :: Text.words "\x7b" := by
    rw [hsplit, Text.words_head (show Text.words "table" = ["table"] by decide),
      Text.words_head hfamily.word.words_eq,
      Text.words_head htable.word.words_eq]
  exact .of_none (readRule_header (by simp) htable.ne_negation hwords)

theorem lineConsistent_chainHeader {c : Chain} (hc : CheckedChain c) :
    LineConsistent ("  chain " ++ c.name ++ " \x7b") := by
  have hsplit : "  chain " ++ c.name ++ " \x7b" = "  chain" ++ " " ++
    (c.name ++ " " ++ "\x7b") := by
    simp only [show "  chain " = "  chain" ++ " " from rfl, show " \x7b" = " " ++ "\x7b" from rfl,
      String.append_assoc]
  have hwords : Text.words ("  chain " ++ c.name ++ " \x7b") = ["chain", c.name, "\x7b"] := by
    rw [hsplit, Text.words_head (show Text.words "  chain" = ["chain"] by decide),
      Text.words_head hc.name.word.words_eq]
    rfl
  exact .of_none (readRule_header (by simp) (by decide) hwords)

theorem lineConsistent_hookLine {c : Chain} (hc : CheckedChain c) :
    ∀ line ∈ hookLine c, LineConsistent line := by
  intro line hline
  obtain ⟨chainType, hook, htype, -, rfl⟩ := exists_of_mem_hookLine hc hline
  generalize htail : hook ++ " priority " ++ toString (c.priority.getD 0) ++ "; policy " ++
    c.policy.getD "accept" ++ ";" = tail
  have hsplit : "    type " ++ chainType ++ " hook " ++ hook ++ " priority " ++
      toString (c.priority.getD 0) ++ "; policy " ++ c.policy.getD "accept" ++ ";" =
      "    type" ++ " " ++ (chainType ++ " " ++ ("hook" ++ " " ++ tail)) := by
    simp only [← htail, show "    type " = "    type" ++ " " from rfl,
      show " hook " = " " ++ ("hook" ++ " ") from rfl, String.append_assoc]
  have hwords : Text.words ("    type" ++ " " ++ (chainType ++ " " ++ ("hook" ++ " " ++ tail))) =
      "type" :: chainType :: "hook" :: Text.words tail := by
    rw [Text.words_head (show Text.words "    type" = ["type"] by decide),
      Text.words_head htype.word.words_eq,
      Text.words_head (show Text.words "hook" = ["hook"] by decide)]
  rw [hsplit]
  exact .of_none (readRule_header (by simp) (by decide) hwords)

/-! ## The file -/

theorem mem_allowedSsh {cidr : String} :
    cidr ∈ allowedSsh cfg allow ↔ cidr ∈ cfg.allowSshFrom ++ allow := by
  have hfold : ∀ (allow out : List String), cidr ∈ allow.foldl
      (fun out cidr => if cidr ∈ out then out else out ++ [cidr]) out ↔ cidr ∈ out ++ allow := by
    intro allow
    induction allow with
    | nil => intro out; rw [List.foldl_nil, List.append_nil]
    | cons first allow ih =>
        intro out
        rw [List.foldl_cons, ih]
        split_ifs with hfirst
        · simp only [List.mem_append, List.mem_cons]
          constructor
          · rintro (h | h)
            · exact .inl h
            · exact .inr (.inr h)
          · rintro (h | rfl | h)
            · exact .inl h
            · exact .inl hfirst
            · exact .inr h
        · rw [List.append_assoc, List.singleton_append]
  exact hfold allow cfg.allowSshFrom

/-- The line of an address in the isolation table. -/
def isolationLine (a : String) : String := "    " ++ ("ip saddr " ++ a ++ " tcp dport 22 accept")

theorem isolationLine_consistent_iff {a value : String} (hstd : std.Documented)
    (h : validateIpOrCidr std value = .ok a) : LineConsistent (isolationLine a) ↔
      IsV4Cidr value := by
  obtain ⟨ip, len, hvalue, hread, -⟩ := ruleLine_isolation hstd h
  rw [isolationLine, lineConsistent_iff, hread, isV4Cidr_iff hvalue]
  exact ⟨fun hall => hall _ List.mem_cons_self,
    fun hbits => List.forall_mem_cons.mpr ⟨hbits, by decide⟩⟩

theorem isolationLines_consistent_iff {values addresses : List String} (hstd : std.Documented)
    (h : List.Forall₂ (fun value a => validateIpOrCidr std value = .ok a) values addresses) :
    (∀ a ∈ addresses, LineConsistent (isolationLine a)) ↔ ∀ value ∈ values, IsV4Cidr value := by
  induction h with
  | nil => exact iff_of_true nofun nofun
  | cons ha _ ih => rw [List.forall_mem_cons, List.forall_mem_cons,
    isolationLine_consistent_iff hstd ha, ih]

/-- The isolation table is of one family if all the addresses for it are of IPv4. -/
theorem isolation_consistent_iff {isolation : List Line} (hstd : std.Documented)
    (h : renderIsolationTable cfg std allow = .ok isolation) :
    (∀ line ∈ isolation.map Line.text, LineConsistent line) ↔
      ∀ cidr ∈ cfg.allowSshFrom ++ allow, IsV4Cidr cidr := by
  rw [renderIsolationTable] at h
  obtain ⟨addresses, haddresses, h⟩ := Checks.bind_eq_ok.mp h
  obtain rfl := Except.ok.inj h
  have hcidrs := isolationLines_consistent_iff hstd (Checks.mapM_eq_ok.mp haddresses)
  simp only [mem_allowedSsh] at hcidrs
  rw [← hcidrs, List.map_append, List.map_append, List.map_map]
  simp only [List.forall_mem_append]
  constructor
  · rintro ⟨⟨-, hlines⟩, -⟩ a ha
    exact hlines _ (List.mem_map_of_mem ha)
  · intro hall
    refine ⟨⟨?_, fun line hline => ?_⟩, ?_⟩
    · cases cfg.defaultDropInput <;> decide +kernel
    · obtain ⟨a, ha, rfl⟩ := List.mem_map.mp hline
      exact hall a ha
    · decide

/-- The managed table is of one family if all its rules are. -/
theorem tableLines_consistent_iff (hstd : std.Documented)
    (htarget : ensureRulesetTarget rs = .ok ())
    (hrules : ∀ r ∈ rs.rules, r.chain ∈ rs.chains.map Chain.name ∧
      renderExprs std r.expr = .ok (ruleText std r)) :
    (∀ line ∈ tableLines std rs, LineConsistent line) ↔
      ∀ r ∈ rs.rules, ∀ e ∈ r.expr, e.FamilyConsistent std := by
  obtain ⟨hfamily, htable, hchains⟩ := of_ensureRulesetTarget htarget
  have hrule : ∀ r ∈ rs.rules, LineConsistent (ruleLine std r) ↔
      ∀ e ∈ r.expr, e.FamilyConsistent std :=
    fun r hr => (ruleLine_of_renderExprs hstd (hrules r hr).2).lineConsistent_iff
  rw [forall_mem_tableLines]
  constructor
  · rintro ⟨-, hlines, -⟩ r hr
    obtain ⟨c, hc, hname⟩ := List.mem_map.mp (hrules r hr).1
    exact (hrule r hr).mp ((hlines c hc).2.2.1 r hr hname.symm)
  · intro hall
    exact ⟨lineConsistent_tableHeader hfamily htable,
      fun c hc => ⟨lineConsistent_chainHeader (hchains c hc),
        lineConsistent_hookLine (hchains c hc), fun r hr _ => (hrule r hr).mpr (hall r hr),
        by decide⟩, by decide⟩

/-- A rendered file is of one family throughout if the addresses for the isolation table and the
expressions of the rules are. -/
theorem fileConsistent_iff (hstd : std.Documented) (htarget : ensureRulesetTarget rs = .ok ())
    (h : renderRuleset cfg std rs allow = .ok rendered) :
    FileConsistent (fileText rendered) ↔ (∀ cidr ∈ cfg.allowSshFrom ++ allow, IsV4Cidr cidr) ∧
      ∀ r ∈ rs.rules, ∀ e ∈ r.expr, e.FamilyConsistent std := by
  obtain ⟨⟨isolation, hisolation, hlines⟩, hrules⟩ := lines_of_renderRuleset hstd htarget h
  have hblank : LineConsistent "" := by decide
  rw [FileConsistent, hlines, List.forall_mem_map]
  simp only [String.ofList_toList]
  rw [List.forall_mem_append, List.forall_mem_cons, isolation_consistent_iff hstd hisolation,
    tableLines_consistent_iff hstd htarget hrules, and_iff_right hblank]

end Headers

/-! ## Lockdown -/

section Lockdown
variable {cfg : Config} {std : Std} {cidrs : List String} {rendered : List Line} {now : Int}

theorem word_of_readCidr {value : String} {a : IpText.Addr × Option ℕ}
    (h : readCidr value = some a) :
    Text.Word value := by
  rw [readCidr] at h
  split at h
  · rename_i ip len hsplit
    obtain ⟨addr, haddr, h⟩ := Option.bind_eq_some_iff.mp h
    obtain ⟨n, hn, -⟩ := Option.map_eq_some_iff.mp h
    have hlist := Interfaces.splitOnce_eq_some hsplit
    refine ⟨by rw [hlist]; exact List.append_ne_nil_of_right_ne_nil _ (List.cons_ne_nil _ _),
      fun c hc => ?_⟩
    rw [hlist, List.mem_append, List.mem_cons] at hc
    rcases hc with hc | rfl | hc
    · exact (valueWord_of_parse haddr).word.not_space c hc
    · decide
    · exact Interfaces.isSpace_of_isPlain ((Interfaces.plain_of_parseUnsigned hn).plain c hc)
  · obtain ⟨addr, haddr, -⟩ := Option.map_eq_some_iff.mp h
    exact (valueWord_of_parse haddr).word

theorem lockdownRuleset_target : ensureRulesetTarget (lockdownRuleset now cidrs) = .ok () := by
  have hnone : ensureRulesetTarget (lockdownRuleset 0 []) = .ok () := rfl
  exact hnone

/-- The rules of a lockdown are of one family if the networks for it are of IPv4. -/
theorem lockdown_rules_iff (hstd : std.Documented) (hcidrs : ∀ cidr ∈ cidrs, IsV4Cidr cidr) :
    ∀ r ∈ (lockdownRuleset now cidrs).rules, ∀ e ∈ r.expr, e.FamilyConsistent std := by
  have hfield : std.lowercase (Text.trimSpace "ip saddr") = "ip saddr" := by
    have htrim : Text.trimSpace "ip saddr" = "ip saddr" := by decide
    rw [htrim]
    exact hstd.lowercase _ (by simp)
  refine List.forall_mem_map.mpr fun cidr hcidr => ?_
  refine List.forall_mem_cons.mpr ⟨fun _ => ?_, List.forall_mem_singleton.mpr trivial⟩
  obtain ⟨ip, len, hread, hbits⟩ := hcidrs cidr hcidr
  rw [hfield, trimSpace_of_word (word_of_readCidr hread)]
  exact ⟨ip, len, hread, hbits⟩

end Lockdown

/-- A ruleset that is accepted and rendered has address matches of one family each if and only if
the addresses for the isolation table are of IPv4 and the expressions of the rules compare each
field with its family; for a lockdown, if and only if the networks are of IPv4. -/
theorem rendered_families_iff {std : Std} (hstd : std.Documented) (cfg : Config) :
    (∀ rs allow rendered, ensureRulesetTarget rs = .ok () →
    renderRuleset cfg std rs allow = .ok rendered →
      (FileConsistent (fileText rendered) ↔ (∀ cidr ∈ cfg.allowSshFrom ++ allow, IsV4Cidr cidr) ∧
        ∀ r ∈ rs.rules, ∀ e ∈ r.expr, e.FamilyConsistent std)) ∧
    ∀ now cidrs rendered, renderRuleset cfg std (lockdownRuleset now cidrs) cidrs = .ok rendered →
      (FileConsistent (fileText rendered) ↔ ∀ cidr ∈ cfg.allowSshFrom ++ cidrs, IsV4Cidr cidr) := by
  refine ⟨fun rs allow rendered htarget h => fileConsistent_iff hstd htarget h,
    fun now cidrs rendered h => ?_⟩
  rw [fileConsistent_iff hstd lockdownRuleset_target h]
  refine and_iff_left_of_imp fun hcidrs => lockdown_rules_iff hstd fun cidr hcidr => ?_
  exact hcidrs cidr (List.mem_append_right _ hcidr)

/-! ### A lockdown for a network of IPv6 -/

def sixNetwork : String := "2001:db8::/32"

def sixLockdown : List Line :=
  [.table "inet" "pmx-isolation", .chain "input", .baseChain "filter" "input" (-300) none,
    .chainPolicy "drop", .rule "ct state established,related accept",
    .rule "ip saddr 2001:db8::/32 tcp dport 22 accept", .endChain, .endTable, .blank,
    .table "inet" "pmx-cloud", .chain "input", .baseChain "filter" "input" 0 (some "drop"),
    .rule "ip saddr 2001:db8::/32 accept", .endChain, .endTable]

/-- The lockdown compares the field of IPv4 with the network. -/
theorem sixLockdown_not_consistent :
    ensureRulesetTarget (lockdownRuleset 0 [sixNetwork]) = .ok () ∧
    renderRuleset plainConfig echoStd (lockdownRuleset 0 [sixNetwork]) [sixNetwork] = .ok
      sixLockdown ∧
    ¬ FileConsistent (fileText sixLockdown) := by
  have hprintable : ∀ line ∈ sixLockdown, Interfaces.Printable line.text := by decide +kernel
  refine ⟨rfl, rfl, fun hconsistent => ?_⟩
  rw [FileConsistent, lines_fileText hprintable, List.forall_mem_map] at hconsistent
  have hline := hconsistent (.rule "ip saddr 2001:db8::/32 accept") (by decide)
  rw [String.ofList_toList] at hline
  exact absurd hline (by decide)

/-- The condition of the lockdown at a network of each family. -/
theorem rendered_families_iff_sixNetwork :
    (∀ rendered, renderRuleset plainConfig echoStd (lockdownRuleset 0 [sixNetwork]) [sixNetwork] =
      .ok rendered →
      ¬ FileConsistent (fileText rendered)) ∧
    ∀ rendered, renderRuleset plainConfig echoStd (lockdownRuleset 0 ["10.0.0.0/8"])
      ["10.0.0.0/8"] =
      .ok rendered → FileConsistent (fileText rendered) := by
  have hlockdown := (rendered_families_iff echoStd_documented plainConfig).2
  constructor
  · intro rendered h hconsistent
    have hsix : readCidr sixNetwork =
        some (.v6 0x20010db8000000000000000000000000#128, some 32) := by decide
    have hv4 := (hlockdown _ _ _ h).mp hconsistent sixNetwork (by decide)
    exact absurd ((isV4Cidr_iff hsix).mp hv4) (by decide)
  · intro rendered h
    refine (hlockdown _ _ _ h).mpr (List.forall_mem_singleton.mpr ?_)
    exact ⟨.v4 0x0a000000#32, some 8, by decide, rfl⟩

end PmxAgents.Network
