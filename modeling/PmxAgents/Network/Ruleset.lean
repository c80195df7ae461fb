import PmxAgents.Lib.Text

/-!
# Firewall rulesets

A ruleset is checked and rendered as a file for `nft`: the isolation table of the
host first, then the managed table with its chains and rules.

## Implementation notes

A rendered file is kept line by line, each line with what `nft` reads in it; `Line.text`
gives its characters. The address syntax and the lower case of the standard library are
arguments.
-/

namespace PmxAgents.Network

open Lib

/-! ## Rulesets -/

structure Chain where
  name : String
  chainType : Option String
  hook : Option String
  priority : Option Int
  policy : Option String
  deriving DecidableEq, Repr

inductive Expr where
  | matchField (left op right : String)
  | counter
  | accept
  | drop
  | jump (target : String)
  deriving DecidableEq, Repr

structure Rule where
  chain : String
  expr : List Expr
  deriving DecidableEq, Repr

structure RuleSet where
  revision : Option String
  family : String
  table : String
  chains : List Chain
  rules : List Rule
  deriving DecidableEq, Repr

/-- The configuration, with the components of the directory the agent works in. -/
structure Config where
  workingDir : List String
  rulesetDir : String
  maxRulesPerHost : ℕ
  defaultDropInput : Bool
  allowSshFrom : List String
  deriving DecidableEq, Repr

structure ApplyParams where
  ruleset : RuleSet
  allowSshFrom : List String
  deriving DecidableEq, Repr

def isolationInputPriority : Int := -300

def defaultTable : String := "pmx-cloud"

def isolationTable : String := "pmx-isolation"

/-- An address in its canonical form. -/
inductive Ip where
  | v4 (text : String)
  | v6 (text : String)
  deriving DecidableEq, Repr

def Ip.text : Ip → String
  | .v4 text => text
  | .v6 text => text

def Ip.maxPrefix : Ip → ℕ
  | .v4 _ => 32
  | .v6 _ => 128

/-- What is used of the standard library. -/
structure Std where
  parseIp : String → Option Ip
  lowercase : String → String

/-! ## Lines -/

inductive Line where
  | blank
  | flushTable (family name : String)
  | table (family name : String)
  | chain (name : String)
  | baseChain (chainType hook : String) (priority : Int) (policy : Option String)
  | chainPolicy (policy : String)
  | rule (text : String)
  | endChain
  | endTable
  deriving DecidableEq, Repr

def Line.text : Line → String
  | .blank => ""
  | .flushTable family name => "flush table " ++ family ++ " " ++ name
  | .table family name => "table " ++ family ++ " " ++ name ++ " \x7b"
  | .chain name => "  chain " ++ name ++ " \x7b"
  | .baseChain chainType hook priority policy =>
      "    type " ++ chainType ++ " hook " ++ hook ++ " priority " ++ toString priority ++ ";" ++
        match policy with
        | none => ""
        | some policy => " policy " ++ policy ++ ";"
  | .chainPolicy policy => "    policy " ++ policy ++ ";"
  | .rule text => "    " ++ text
  | .endChain => "  \x7d"
  | .endTable => "\x7d"

/-- The characters of a file. -/
def fileText (lines : List Line) : String :=
  String.join (lines.map fun line => line.text ++ "\n")

/-! ## Values -/

def splitOnce (sep : Char) (s : String) : Option (String × String) :=
  if sep ∈ s.toList then
    some (String.ofList (s.toList.takeWhile (· ≠ sep)),
      String.ofList ((s.toList.dropWhile (· ≠ sep)).drop 1))
  else none

/-- A decimal number, with an optional plus sign, up to a bound. -/
def parseUnsigned (max : ℕ) (s : String) : Option ℕ :=
  let digits := if s.toList.head? = some '+' then s.toList.drop 1 else s.toList
  if digits ≠ [] ∧ digits.all Char.isDigit then
    let n := Nat.ofDigitChars 10 digits 0
    if n ≤ max then some n else none
  else none

def validateIpOrCidr (std : Std) (value : String) : Except String String :=
  match splitOnce '/' value with
  | some (ip, length) =>
      match std.parseIp ip with
      | none => .error ("invalid ip in cidr " ++ value)
      | some ip =>
          match parseUnsigned 255 length with
          | none => .error ("invalid prefix in cidr " ++ value)
          | some length =>
              if length ≤ ip.maxPrefix then .ok (ip.text ++ "/" ++ toString length)
              else .error ("invalid prefix in cidr " ++ value)
  | none =>
      match std.parseIp value with
      | none => .error ("invalid ip " ++ value)
      | some ip => .ok ip.text

def validatePortExpr (value : String) : Except String String :=
  match splitOnce '-' value with
  | some (lo, hi) =>
      match parseUnsigned 65535 (Text.trimSpace lo) with
      | none => .error "invalid lower port"
      | some lo =>
          match parseUnsigned 65535 (Text.trimSpace hi) with
          | none => .error "invalid upper port"
          | some hi =>
              if lo = 0 ∨ hi = 0 ∨ hi < lo then .error ("invalid port range " ++ value)
              else .ok (toString lo ++ "-" ++ toString hi)
  | none =>
      match parseUnsigned 65535 (Text.trimSpace value) with
      | none => .error ("invalid port " ++ value)
      | some port =>
          if port = 0 then .error ("invalid port " ++ value) else .ok (toString port)

def validateL4Proto (std : Std) (value : String) : Except String String :=
  let proto := std.lowercase (Text.trimSpace value)
  if proto ∈ ["tcp", "udp", "icmp", "icmpv6"] then .ok proto
  else .error ("invalid l4 protocol " ++ value)

def isAsciiAlphanumeric (c : Char) : Bool := c.isAlphanum

def validateInterfaceName (value : String) : Except String String :=
  let v := Text.trimSpace value
  if v = "" ∨ ¬ v.toList.all (fun c => isAsciiAlphanumeric c || c ∈ ['-', '_', '.']) then
    .error ("invalid interface name " ++ value)
  else .ok v

def ctStates : List String := ["new", "established", "related", "invalid", "untracked"]

def validateCtStates (std : Std) (value : String) : Except String (List String) :=
  (Text.split ',' value.toList).foldlM (fun out raw =>
    let state := std.lowercase (String.ofList (Text.trim raw))
    if state ∈ ctStates then .ok (if state ∈ out then out else out ++ [state])
    else .error ("invalid conntrack state " ++ state)) []

def normalizeComparisonOp (op : String) : Except String String :=
  if op = "==" ∨ op = "=" then .ok "=="
  else if op = "!=" then .ok "!="
  else if op = "in" then .ok "in"
  else .error ("unsupported match operator " ++ op)

def renderValueMatch (left cmp right : String) : String :=
  if cmp = "!=" then left ++ " != " ++ right else left ++ " " ++ right

def renderMatchExpr (std : Std) (left op right : String) : Except String String := do
  let left := std.lowercase (Text.trimSpace left)
  let op := std.lowercase (Text.trimSpace op)
  let right := Text.trimSpace right
  if right = "" then throw "match right-hand side is required"
  if left ∈ ["ip saddr", "ip daddr", "ip6 saddr", "ip6 daddr"] then
    let cmp ← normalizeComparisonOp op
    let rhs ← validateIpOrCidr std right
    return renderValueMatch left cmp rhs
  else if left ∈ ["tcp dport", "udp dport"] then
    let cmp ← normalizeComparisonOp op
    let rhs ← validatePortExpr right
    return renderValueMatch left cmp rhs
  else if left = "meta l4proto" then
    let cmp ← normalizeComparisonOp op
    let rhs ← validateL4Proto std right
    return renderValueMatch left cmp rhs
  else if left ∈ ["iifname", "oifname"] then
    let cmp ← normalizeComparisonOp op
    let rhs ← validateInterfaceName right
    return renderValueMatch left cmp ("\"" ++ rhs ++ "\"")
  else if left = "ct state" then
    if op ≠ "in" then throw "ct state matches require op=in"
    let states ← validateCtStates std right
    return "ct state \x7b " ++ String.intercalate ", " states ++ " \x7d"
  else throw ("unsupported match field " ++ left)

/-! ## Checks -/

def isSafeIdent (value : String) : Bool :=
  value ≠ "" && value.toList.all fun c => isAsciiAlphanumeric c || c ∈ ['_', '-']

def ensureLimit (cfg : Config) (rs : RuleSet) : Except String Unit :=
  if cfg.maxRulesPerHost < rs.rules.length then
    .error ("RULE_LIMIT_EXCEEDED: rules=" ++ toString rs.rules.length ++ " max=" ++
      toString cfg.maxRulesPerHost)
  else .ok ()

def validateChain (c : Chain) : Except String Unit := do
  if ¬ isSafeIdent c.name then throw ("invalid chain name " ++ c.name)
  if c.chainType.isSome ≠ c.hook.isSome then
    throw ("chain " ++ c.name ++ " must set chain_type and hook together")
  if let some chainType := c.chainType then
    if chainType ∉ ["filter", "nat", "route"] then throw ("unsupported chain type " ++ chainType)
  if let some hook := c.hook then
    if hook ∉ ["input", "output", "forward", "prerouting", "postrouting", "ingress"] then
      throw ("unsupported hook " ++ hook)
    let priority := c.priority.getD 0
    if hook = "input" ∧ priority ≤ isolationInputPriority then
      throw ("input chain priority " ++ toString priority ++
        " must be greater than isolation priority " ++ toString isolationInputPriority)
  if let some policy := c.policy then
    if policy ∉ ["accept", "drop"] then throw ("unsupported policy " ++ policy)

def ensureRulesetTarget (rs : RuleSet) : Except String Unit := do
  if rs.table = isolationTable then
    throw "ruleset table 'pmx-isolation' is reserved and immutable"
  if rs.family ∉ ["inet", "ip", "ip6"] then throw ("unsupported table family " ++ rs.family)
  if ¬ isSafeIdent rs.table then throw ("invalid table name " ++ rs.table)
  rs.chains.forM validateChain

def normalizeRevision (revision : Option String) (now : Int) : Except String String :=
  let trimmed := Text.trimSpace (revision.getD ("rev-" ++ toString now))
  if trimmed = "" ∨ 128 < trimmed.utf8ByteSize then .error "invalid revision"
  else if ¬ trimmed.toList.all (fun c => isAsciiAlphanumeric c || c ∈ ['-', '_', '.']) then
    .error "invalid revision"
  else .ok trimmed

/-! ## Rendering -/

def renderExpr (std : Std) : Expr → Except String String
  | .matchField left op right => renderMatchExpr std left op right
  | .counter => .ok "counter"
  | .accept => .ok "accept"
  | .drop => .ok "drop"
  | .jump target =>
      if isSafeIdent target then .ok ("jump " ++ target)
      else .error ("invalid jump target " ++ target)

def renderExprs (std : Std) (exprs : List Expr) : Except String String := do
  let out ← exprs.mapM (renderExpr std)
  return String.intercalate " " out

/-- The configured addresses and those of the request that are not among them. -/
def allowedSsh (cfg : Config) (allowSshFrom : List String) : List String :=
  allowSshFrom.foldl (fun out cidr => if cidr ∈ out then out else out ++ [cidr]) cfg.allowSshFrom

def renderIsolationTable (cfg : Config) (std : Std) (allowSshFrom : List String) :
    Except String (List Line) := do
  let addresses ← (allowedSsh cfg allowSshFrom).mapM (validateIpOrCidr std)
  return [Line.table "inet" isolationTable, .chain "input",
      .baseChain "filter" "input" isolationInputPriority none,
      .chainPolicy (if cfg.defaultDropInput then "drop" else "accept"),
      .rule "ct state established,related accept"] ++
    addresses.map (fun a => Line.rule ("ip saddr " ++ a ++ " tcp dport 22 accept")) ++
    [Line.endChain, .endTable]

/-- A rule with its text, if its chain is declared. -/
def renderRule (std : Std) (declared : List String) (r : Rule) : Except String (String × String) :=
  if r.chain ∈ declared then do
    let line ← renderExprs std r.expr
    return (r.chain, line)
  else .error ("rule references undeclared chain " ++ r.chain)

def renderChain (rules : List (String × String)) (c : Chain) : List Line :=
  let header : List Line := match c.chainType, c.hook with
    | some chainType, some hook =>
        [.baseChain chainType hook (c.priority.getD 0) (some (c.policy.getD "accept"))]
    | _, _ => []
  .chain c.name :: header ++
    (rules.filter fun r => r.1 = c.name).map (fun r => Line.rule r.2) ++ [.endChain]

def renderRuleset (cfg : Config) (std : Std) (rs : RuleSet) (allowSshFrom : List String) :
    Except String (List Line) := do
  let rules ← rs.rules.mapM (renderRule std (rs.chains.map Chain.name))
  let isolation ← renderIsolationTable cfg std allowSshFrom
  return isolation ++ [Line.blank, .table rs.family rs.table] ++
    rs.chains.flatMap (renderChain rules) ++ [Line.endTable]

def ensureIsolationIntact (cfg : Config) (std : Std) (allowSshFrom : List String)
    (rendered : List Line) : Except String Unit := do
  let expected ← renderIsolationTable cfg std allowSshFrom
  if expected <+: rendered then return ()
  else throw "isolation table is missing or modified"

/-- The places at which two texts have different lines. -/
def diffLineCount (old new : List Line) : ℕ :=
  ((List.range (max old.length new.length)).filter fun i =>
    ((old[i]?).map Line.text).getD "" ≠ ((new[i]?).map Line.text).getD "").length

end PmxAgents.Network
