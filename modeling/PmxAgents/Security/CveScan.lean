import PmxAgents.Lib.Checks
import PmxAgents.Lib.DebianVersion
import PmxAgents.Lib.Scanner
import PmxAgents.Lib.Text

/-!
# Scan for known vulnerabilities

The installed packages are looked up in a table of vulnerabilities. A package is affected by a row
if the row has no fixed version or the installed version is lower than the fixed one. That is asked
of `dpkg`; when `dpkg` denies it the texts of the two versions are compared as well.

## Implementation notes

The host is what the program is told by the file system, the database and `dpkg`. Only the tables
that can be queried are tables of the database, and a cell is the text that the driver yields for
it, or NULL.
-/

namespace PmxAgents.Security.Cve

open Lib

structure Finding where
  package : String
  installedVersion : String
  cveID : String
  severity : String
  fixedVersion : String
  deriving DecidableEq, Repr

structure ScanResult where
  findings : List Finding
  deriving DecidableEq, Repr

structure Package where
  name : String
  version : String
  sourceVersion : String
  deriving DecidableEq, Repr

/-- A row of the table; `none` is NULL. -/
structure Row where
  package : Option String
  cveID : Option String
  severity : Option String
  fixedVersion : Option String
  deriving DecidableEq, Repr

structure Database where
  cves : Option (List Row)
  vulnerabilities : Option (List Row)

inductive StatError where
  | notExist
  | other (text : String)

structure Host where
  stat : String → Option StatError
  dpkgQuery : Except String String
  openDb : String → Except String Database
  /-- The error of the query for a package. -/
  queryError : String → Option String
  /-- The error after the rows of a package. -/
  rowsError : String → Option String
  /-- The exit status of `dpkg --compare-versions a lt b`, if it runs. -/
  compareVersions : String → String → Option ℕ

/-! ## The installed packages -/

def parseDpkgLine (line : List Char) : Option Package :=
  match Text.split '|' (Text.trim line) with
  | name :: version :: source :: _ =>
      some ⟨String.ofList name, String.ofList version, String.ofList source⟩
  | [name, version] => some ⟨String.ofList name, String.ofList version, ""⟩
  | _ => none

/-- A line that is too long ends the list. -/
def parseDpkgPackages (raw : String) : List Package :=
  (Scanner.scan Scanner.utf8Lines raw.toList).tokens.filterMap parseDpkgLine

/-- A provider is given, or it is `dpkg-query`. -/
def listInstalled (host : Host) : Option (Except String (List Package)) →
    Except String (List Package)
  | some given => given
  | none => match host.dpkgQuery with
    | .error err => .error ("cve.scan dpkg-query failed: " ++ err)
    | .ok out => .ok (parseDpkgPackages out)

/-! ## The scan -/

def resolveQuery (db : Database) : Except String (List Row) :=
  match db.cves, db.vulnerabilities with
  | some rows, _ => .ok rows
  | none, some rows => .ok rows
  | none, none => .error "cve.scan: unsupported CVE DB schema"

def scanCell (index : ℕ) (name : String) : Option String → Except String String
  | some text => .ok text
  | none => .error ("cve.scan scan row: sql: Scan error on column index " ++ toString index ++
      ", name \"" ++ name ++ "\": converting NULL to string is unsupported")

def scanRow (pkg : Package) (row : Row) : Except String Finding := do
  let cveID ← scanCell 0 "cve_id" row.cveID
  let severity ← scanCell 1 "severity" row.severity
  let fixed ← scanCell 2 "fixed_version" row.fixedVersion
  return ⟨pkg.name, pkg.version, cveID, severity, fixed⟩

def affected (host : Host) (installed fixed : String) : Bool :=
  let fixed := Text.trimSpace fixed
  if fixed = "" then true
  else if host.compareVersions installed fixed = some 0 then true
  else decide (installed < fixed)

def rowsOf (rows : List Row) (pkg : Package) : List Row :=
  rows.filter fun row => row.package = some pkg.name

def scanPackage (host : Host) (rows : List Row) (pkg : Package) : Except String (List Finding) :=
  match host.queryError pkg.name with
  | some err => .error ("cve.scan query " ++ pkg.name ++ ": " ++ err)
  | none => match (rowsOf rows pkg).mapM (scanRow pkg) with
    | .error err => .error err
    | .ok found => match host.rowsError pkg.name with
      | some err => .error ("cve.scan rows " ++ pkg.name ++ ": " ++ err)
      | none => .ok (found.filter fun f => affected host f.installedVersion f.fixedVersion)

def scan (host : Host) (dbPath : String) (provider : Option (Except String (List Package))) :
    Except String ScanResult :=
  let dbPath := if dbPath = "" then "/var/lib/pmx-cloud/security/cve.db" else dbPath
  match host.stat dbPath with
  | some .notExist => .error "CVE_DB_MISSING"
  | some (.other err) => .error ("cve.scan: stat db: " ++ err)
  | none => do
    let pkgs ← listInstalled host provider
    let db ← (host.openDb dbPath).mapError ("cve.scan: open db: " ++ ·)
    let rows ← resolveQuery db
    let found ← pkgs.mapM (scanPackage host rows)
    return ⟨found.flatten⟩

/-! ## What is to be found -/

/-- What a row says of a package; a cell that is NULL says nothing. -/
def finding (pkg : Package) (row : Row) : Finding :=
  ⟨pkg.name, pkg.version, row.cveID.getD "", row.severity.getD "", row.fixedVersion.getD ""⟩

/-- The fixed version is blank, or the installed one is lower. -/
def Vulnerable (lt : String → String → Prop) (f : Finding) : Prop :=
  Text.trimSpace f.fixedVersion = "" ∨ lt f.installedVersion (Text.trimSpace f.fixedVersion)

/-- The row is listed for the package. -/
def Listed (pkgs : List Package) (rows : List Row) (pkg : Package) (row : Row) : Prop :=
  pkg ∈ pkgs ∧ row ∈ rows ∧ row.package = some pkg.name

/-- The findings are the listed pairs whose package is vulnerable. -/
def Exact (lt : String → String → Prop) (pkgs : List Package) (rows : List Row) (res : ScanResult) :
    Prop :=
  ∀ f, f ∈ res.findings ↔ (∃ pkg row, Listed pkgs rows pkg row ∧ f = finding pkg row) ∧
    Vulnerable lt f

def Row.Complete (row : Row) : Prop :=
  row.cveID.isSome ∧ row.severity.isSome ∧ row.fixedVersion.isSome

/-- The database and the list of packages can be read. -/
structure Readable (host : Host) (dbPath : String)
    (provider : Option (Except String (List Package)))
    (pkgs : List Package) (rows : List Row) : Prop where
  stat : host.stat (if dbPath = "" then "/var/lib/pmx-cloud/security/cve.db" else dbPath) = none
  installed : listInstalled host provider = .ok pkgs
  table : ∃ db, host.openDb (if dbPath = "" then "/var/lib/pmx-cloud/security/cve.db" else dbPath) =
    .ok db ∧ resolveQuery db = .ok rows
  queries : ∀ pkg ∈ pkgs, host.queryError pkg.name = none ∧ host.rowsError pkg.name = none

/-! ## What the scan yields -/

section Scan
variable {host : Host} {rows : List Row} {pkgs : List Package} {pkg : Package} {row : Row}

theorem scanCell_eq_ok_iff {index : ℕ} {name text : String} {cell : Option String} :
    scanCell index name cell = .ok text ↔ cell = some text := by
  cases cell with
  | none => exact iff_of_false nofun nofun
  | some t => simp [scanCell]

theorem scanRow_eq_ok_iff {f : Finding} :
    scanRow pkg row = .ok f ↔ row.Complete ∧ f = finding pkg row := by
  obtain ⟨package, cveID, severity, fixedVersion⟩ := row
  rw [scanRow]
  simp only [Checks.bind_eq_ok, scanCell_eq_ok_iff]
  constructor
  · rintro ⟨cve, rfl, sev, rfl, fixed, rfl, hf⟩
    exact ⟨⟨rfl, rfl, rfl⟩, (Except.ok.inj hf).symm⟩
  · rintro ⟨⟨hcve, hsev, hfixed⟩, rfl⟩
    obtain ⟨cve, rfl⟩ := Option.isSome_iff_exists.mp hcve
    obtain ⟨sev, rfl⟩ := Option.isSome_iff_exists.mp hsev
    obtain ⟨fixed, rfl⟩ := Option.isSome_iff_exists.mp hfixed
    exact ⟨cve, rfl, sev, rfl, fixed, rfl, rfl⟩

/-- The findings for a package. -/
def foundFor (host : Host) (rows : List Row) (pkg : Package) : List Finding :=
  ((rowsOf rows pkg).map (finding pkg)).filter fun f =>
    affected host f.installedVersion f.fixedVersion

theorem scanPackage_eq_ok_iff {found : List Finding} (hquery : host.queryError pkg.name = none)
    (hrows : host.rowsError pkg.name = none) :
    scanPackage host rows pkg = .ok found ↔
      (∀ row ∈ rowsOf rows pkg, row.Complete) ∧ found = foundFor host rows pkg := by
  have hmap {all : List Finding} : (rowsOf rows pkg).mapM (scanRow pkg) = .ok all ↔
      (∀ row ∈ rowsOf rows pkg, row.Complete) ∧ all = (rowsOf rows pkg).map (finding pkg) :=
    Checks.mapM_eq_ok_iff_map fun row _ f => scanRow_eq_ok_iff
  rw [scanPackage, hquery]
  cases hscan : (rowsOf rows pkg).mapM (scanRow pkg) with
  | error err =>
      refine iff_of_false nofun fun h => ?_
      rw [hmap.mpr ⟨h.1, rfl⟩] at hscan
      cases hscan
  | ok all =>
      obtain ⟨hcomplete, rfl⟩ := hmap.mp hscan
      simp only [hrows]
      exact ⟨fun h => ⟨hcomplete, (Except.ok.inj h).symm⟩, fun h => congrArg Except.ok h.2.symm⟩

variable {dbPath : String} {provider : Option (Except String (List Package))}

/-- Where everything can be read, the scan succeeds exactly if no cell of interest is NULL. -/
theorem scan_eq_ok_iff {res : ScanResult} (h : Readable host dbPath provider pkgs rows) :
    scan host dbPath provider = .ok res ↔
      (∀ pkg row, Listed pkgs rows pkg row → row.Complete) ∧
        res.findings = pkgs.flatMap (foundFor host rows) := by
  obtain ⟨db, hdb, hquery⟩ := h.table
  have hmap {all : List (List Finding)} : pkgs.mapM (scanPackage host rows) = .ok all ↔
      (∀ pkg ∈ pkgs, ∀ row ∈ rowsOf rows pkg, row.Complete) ∧ all = pkgs.map (foundFor host rows) :=
    Checks.mapM_eq_ok_iff_map fun pkg hpkg found =>
      scanPackage_eq_ok_iff (h.queries pkg hpkg).1 (h.queries pkg hpkg).2
  have hlisted : (∀ pkg ∈ pkgs, ∀ row ∈ rowsOf rows pkg, row.Complete) ↔
      ∀ pkg row, Listed pkgs rows pkg row → row.Complete := by
    simp only [rowsOf, List.mem_filter, decide_eq_true_eq, Listed, and_imp]
    exact ⟨fun h pkg row hpkg => h pkg hpkg row, fun h pkg hpkg row => h pkg row hpkg⟩
  simp only [scan, h.stat, h.installed, hdb, Except.mapError, Checks.bind_eq_ok, Except.ok.injEq,
    hquery, exists_eq_left', hmap, hlisted]
  constructor
  · rintro ⟨all, ⟨hcomplete, rfl⟩, hres⟩
    rw [← Except.ok.inj hres]
    exact ⟨hcomplete, List.flatMap_def.symm⟩
  · rintro ⟨hcomplete, hres⟩
    refine ⟨_, ⟨hcomplete, rfl⟩, ?_⟩
    rw [← List.flatMap_def, ← hres]
    rfl

theorem mem_flatMap_foundFor {f : Finding} :
    f ∈ pkgs.flatMap (foundFor host rows) ↔
      (∃ pkg row, Listed pkgs rows pkg row ∧ f = finding pkg row) ∧
        affected host f.installedVersion f.fixedVersion = true := by
  simp only [List.mem_flatMap, foundFor, List.mem_filter, List.mem_map, rowsOf, decide_eq_true_eq]
  constructor
  · rintro ⟨pkg, hpkg, ⟨row, ⟨hrow, hname⟩, rfl⟩, haffected⟩
    exact ⟨⟨pkg, row, ⟨hpkg, hrow, hname⟩, rfl⟩, haffected⟩
  · rintro ⟨⟨pkg, row, ⟨hpkg, hrow, hname⟩, rfl⟩, haffected⟩
    exact ⟨pkg, hpkg, ⟨row, ⟨hrow, hname⟩, rfl⟩, haffected⟩

variable {lt : String → String → Prop}

/-- The package is affected if it is vulnerable, or if the texts of the versions say so. -/
theorem affected_iff (hdpkg : ∀ a b, host.compareVersions a b = some 0 ↔ lt a b) {f : Finding} :
    affected host f.installedVersion f.fixedVersion = true ↔
      Vulnerable lt f ∨ f.installedVersion < Text.trimSpace f.fixedVersion := by
  simp only [affected, Vulnerable]
  split_ifs with hblank hlt
  · exact iff_of_true rfl (.inl (.inl hblank))
  · exact iff_of_true rfl (.inl (.inr ((hdpkg _ _).mp hlt)))
  · rw [decide_eq_true_iff]
    exact ⟨.inr, fun h => h.resolve_left fun h => h.elim hblank fun h => hlt ((hdpkg _ _).mpr h)⟩

/-- The scan reports exactly the pairs of a package and a vulnerability of it if and only if no
cell of a listed row is NULL, and no listed version with a lower text is not lower for `dpkg`. -/
theorem scan_exact_iff (host : Host) (dbPath : String)
    (provider : Option (Except String (List Package))) (pkgs : List Package) (rows : List Row)
    (lt : String → String → Prop) (hread : Readable host dbPath provider pkgs rows)
    (hdpkg : ∀ a b, host.compareVersions a b = some 0 ↔ lt a b) :
    (∃ res, scan host dbPath provider = .ok res ∧ Exact lt pkgs rows res) ↔
      ∀ pkg row, Listed pkgs rows pkg row → row.Complete ∧
        (pkg.version < Text.trimSpace (row.fixedVersion.getD "") →
          Text.trimSpace (row.fixedVersion.getD "") ≠ "" →
          lt pkg.version (Text.trimSpace (row.fixedVersion.getD ""))) := by
  constructor
  · rintro ⟨res, hscan, hexact⟩ pkg row hlisted
    obtain ⟨hcomplete, hfindings⟩ := (scan_eq_ok_iff hread).mp hscan
    refine ⟨hcomplete pkg row hlisted, fun hlower hne => ?_⟩
    have hmem : finding pkg row ∈ res.findings := by
      rw [hfindings, mem_flatMap_foundFor, affected_iff hdpkg]
      exact ⟨⟨pkg, row, hlisted, rfl⟩, .inr hlower⟩
    exact ((hexact _).mp hmem).2.resolve_left hne
  · intro h
    refine ⟨⟨pkgs.flatMap (foundFor host rows)⟩, (scan_eq_ok_iff hread).mpr
      ⟨fun pkg row hlisted => (h pkg row hlisted).1, rfl⟩, fun f => ?_⟩
    rw [mem_flatMap_foundFor, affected_iff hdpkg]
    refine and_congr_right ?_
    rintro ⟨pkg, row, hlisted, rfl⟩
    refine ⟨fun hor => hor.elim id fun hlower => ?_, .inl⟩
    by_cases hblank : Text.trimSpace (row.fixedVersion.getD "") = ""
    · exact .inl hblank
    · exact .inr ((h pkg row hlisted).2 hlower hblank)

end Scan

/-! ## Two tables -/

/-- A host with one package, on which `dpkg` compares as it is documented. -/
def hostWith (version : String) (rows : List Row) : Host where
  stat _ := none
  dpkgQuery := .ok ("openssl|" ++ version ++ "|" ++ version ++ "\n")
  openDb _ := .ok ⟨some rows, none⟩
  queryError _ := none
  rowsError _ := none
  compareVersions a b := some (if DebianVersion.lt a b then 0 else 1)

theorem compareVersions_hostWith (version : String) (rows : List Row) (a b : String) :
    (hostWith version rows).compareVersions a b = some 0 ↔ DebianVersion.lt a b = true := by
  change some (if DebianVersion.lt a b then 0 else 1) = some 0 ↔ _
  split_ifs with h
  · exact iff_of_true rfl h
  · exact iff_of_false nofun h

def fixedIn (version : String) : Row :=
  ⟨some "openssl", some "CVE-2024-0001", some "high", some version⟩

theorem readable_hostWith {version : String} {rows : List Row} {pkgs : List Package}
    (h : parseDpkgPackages ("openssl|" ++ version ++ "|" ++ version ++ "\n") = pkgs) :
    Readable (hostWith version rows) "" none pkgs rows where
  stat := rfl
  installed := congrArg Except.ok h
  table := ⟨⟨some rows, none⟩, rfl, rfl⟩
  queries _ _ := ⟨rfl, rfl⟩

theorem scan_exact_of_older :
    Readable (hostWith "3.0.9-1" [fixedIn "3.0.11-1", fixedIn " "]) "" none
      [⟨"openssl", "3.0.9-1", "3.0.9-1"⟩] [fixedIn "3.0.11-1", fixedIn " "] ∧
    ∃ res, scan (hostWith "3.0.9-1" [fixedIn "3.0.11-1", fixedIn " "]) "" none = .ok res ∧
      Exact (fun a b => DebianVersion.lt a b = true) [⟨"openssl", "3.0.9-1", "3.0.9-1"⟩]
        [fixedIn "3.0.11-1", fixedIn " "] res := by
  have hread : Readable (hostWith "3.0.9-1" [fixedIn "3.0.11-1", fixedIn " "]) "" none
      [⟨"openssl", "3.0.9-1", "3.0.9-1"⟩] [fixedIn "3.0.11-1", fixedIn " "] :=
    readable_hostWith (by decide)
  refine ⟨hread, (scan_exact_iff _ "" none _ _ _ hread (compareVersions_hostWith _ _)).mpr ?_⟩
  rintro pkg row ⟨hpkg, hrow, -⟩
  obtain rfl := List.mem_singleton.mp hpkg
  rcases List.mem_cons.mp hrow with rfl | hrow
  · exact ⟨⟨rfl, rfl, rfl⟩, fun hlower => absurd hlower (by decide)⟩
  · obtain rfl := List.mem_singleton.mp hrow
    exact ⟨⟨rfl, rfl, rfl⟩, fun _ hne => absurd (by decide) hne⟩

/-- The version 1.10 is reported although the vulnerability is fixed since 1.9. -/
theorem scan_not_exact_of_newer :
    (∀ a b, (hostWith "1.10" [fixedIn "1.9"]).compareVersions a b = some 0 ↔
      DebianVersion.lt a b = true) ∧
    scan (hostWith "1.10" [fixedIn "1.9"]) "" none =
      .ok ⟨[⟨"openssl", "1.10", "CVE-2024-0001", "high", "1.9"⟩]⟩ ∧
    ¬ ∃ res, scan (hostWith "1.10" [fixedIn "1.9"]) "" none = .ok res ∧
      Exact (fun a b => DebianVersion.lt a b = true) [⟨"openssl", "1.10", "1.10"⟩]
        [fixedIn "1.9"] res := by
  have hscan : scan (hostWith "1.10" [fixedIn "1.9"]) "" none =
      .ok ⟨[⟨"openssl", "1.10", "CVE-2024-0001", "high", "1.9"⟩]⟩ := by decide
  refine ⟨compareVersions_hostWith _ _, hscan, ?_⟩
  rintro ⟨res, hres, hexact⟩
  rw [hscan] at hres
  obtain rfl := Except.ok.inj hres
  have hvulnerable := ((hexact _).mp (List.mem_singleton_self _)).2
  rcases hvulnerable with hblank | hlt
  · exact absurd hblank (by decide)
  · exact absurd hlt (by decide)

end PmxAgents.Security.Cve
