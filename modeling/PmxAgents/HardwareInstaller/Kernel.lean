import PmxAgents.Lib.Getopt
import PmxAgents.Lib.Text

/-!
# Loading kernel modules

A request names a module, which has to be on an allow list, and options, which are to become
the parameters of the module. All of them are checked for their characters and are handed to
`modprobe` as its words. The dash is among the characters, so a word may be an option of the
command itself, such as the one that removes modules.

## Implementation notes

The options of the command differ between its versions and are a table of any kind; what
counts is the effect of each: that it removes, takes all words as modules, ends the
command without loading, or only says how to load.
-/

namespace PmxAgents.HardwareInstaller

open Lib Lib.Text

structure LoadRequest where
  module : String
  options : List String

inductive KernelError where
  | invalidModule (raw : String)
  | notAllowlisted (module : String)
  | invalidOption (raw : String)
  deriving DecidableEq, Repr

def isSafeChar (c : Char) : Bool :=
  c.isAlphanum || c == '.' || c == '_' || c == '=' || c == ':' || c == '-'

def safeArg (s : String) : Bool := s ≠ "" && s.toList.all isSafeChar

def moduleOptions : List String → Except KernelError (List String)
  | [] => .ok []
  | raw :: rest =>
      if safeArg (trimSpace raw) = false then .error (.invalidOption raw)
      else
        match moduleOptions rest with
        | .error e => .error e
        | .ok options => .ok (trimSpace raw :: options)

/-- The words that the command is started with. -/
def loadModule (allowedModules : List String) (req : LoadRequest) :
    Except KernelError (List String) :=
  let module := trimSpace req.module
  if safeArg module = false then .error (.invalidModule req.module)
  else if module ∉ allowedModules then .error (.notAllowlisted module)
  else
    match moduleOptions req.options with
    | .error e => .error e
    | .ok options => .ok (module :: options)

/-! ## The command -/

/-- What an option makes the command do. -/
inductive Flag where
  | remove
  | all
  | halt
  | manner
  deriving DecidableEq, Repr

/-- The modules that are loaded, with their parameters, and those that are removed. -/
structure Effect where
  loaded : List (String × List String)
  removed : List String
  deriving DecidableEq

def Effect.nothing : Effect := ⟨[], []⟩

/-- The effect of flags and operands, where the command does not end before. -/
def effectOf (flags : List Flag) (operands : List String) : Effect :=
  if .halt ∈ flags then .nothing
  else if .remove ∈ flags then ⟨[], operands⟩
  else if .all ∈ flags then ⟨operands.map fun m => (m, []), []⟩
  else
    match operands with
    | [] => .nothing
    | module :: parameters => ⟨[(module, parameters)], []⟩

/-- Words that the command cannot read have no effect. -/
def modprobe (table : Getopt.Table Flag) (words : List String) : Effect :=
  match Getopt.parse table none words with
  | none => .nothing
  | some r => effectOf (r.flags.map Prod.fst) r.operands

/-- The module, which is on the allow list, is loaded with the options as its parameters, and that
is all. -/
def Effect.Serves (effect : Effect) (allowed : List String) (req : LoadRequest) : Prop :=
  effect.loaded = [(trimSpace req.module, req.options.map trimSpace)] ∧
    trimSpace req.module ∈ allowed ∧ effect.removed = []

section Words
variable {allowed : List String} {req : LoadRequest} {words : List String}

theorem moduleOptions_eq_ok {raws options : List String} (h : moduleOptions raws = .ok options) :
    options = raws.map trimSpace := by
  induction raws generalizing options with
  | nil => exact (Except.ok.inj h).symm
  | cons raw rest ih =>
      rw [moduleOptions] at h
      split_ifs at h
      cases hrest : moduleOptions rest with
      | error e => simp only [hrest] at h; cases h
      | ok others =>
          simp only [hrest] at h
          rw [← Except.ok.inj h, ih hrest, List.map_cons]

theorem loadModule_eq_ok (h : loadModule allowed req = .ok words) :
    words = (req.module :: req.options).map trimSpace ∧ trimSpace req.module ∈ allowed := by
  rw [loadModule] at h
  split_ifs at h with hsafe hallowed
  cases hoptions : moduleOptions req.options with
  | error e => simp only [hoptions] at h; cases h
  | ok options =>
      simp only [hoptions] at h
      rw [← Except.ok.inj h, moduleOptions_eq_ok hoptions, List.map_cons]
      exact ⟨rfl, hallowed⟩

/-- What is loaded as one module, with its parameters, are the operands. -/
theorem operands_of_effectOf {flags : List Flag} {operands parameters : List String}
    {module : String} (h : (effectOf flags operands).loaded = [(module, parameters)]) :
    operands = module :: parameters := by
  rw [effectOf.eq_def] at h
  split_ifs at h
  · cases h
  · -- each operand is a module without parameters, so there is one
    obtain ⟨m, rfl, hm⟩ := List.map_eq_singleton_iff.mp h
    obtain ⟨rfl, rfl⟩ := Prod.mk.inj hm
    rfl
  · cases operands with
    | nil => cases h
    | cons m ps =>
        obtain ⟨rfl, rfl⟩ := Prod.mk.inj (List.cons.inj h).1
        rfl

end Words

/-- A loaded module serves an accepted request exactly if none of its words is an option of the
command. -/
theorem modprobe_serves_iff (table : Getopt.Table Flag) (allowed : List String) (req : LoadRequest)
    (words : List String) (haccepted : loadModule allowed req = .ok words) :
    (modprobe table words).Serves allowed req ↔
      ∀ raw ∈ req.module :: req.options, Getopt.isOption (trimSpace raw) = false := by
  obtain ⟨hwords, hallowed⟩ := loadModule_eq_ok haccepted
  have hplain : (∀ raw ∈ req.module :: req.options, Getopt.isOption (trimSpace raw) = false) ↔
      ∀ word ∈ words, Getopt.isOption word = false := by
    rw [hwords]
    constructor
    · intro h word hword
      obtain ⟨raw, hraw, rfl⟩ := List.mem_map.mp hword
      exact h raw hraw
    · exact fun h raw hraw => h _ (List.mem_map_of_mem hraw)
  rw [hplain]
  constructor
  · rintro ⟨hloaded, -⟩
    rw [modprobe] at hloaded
    cases hparse : Getopt.parse table none words with
    | none => simp only [hparse] at hloaded; cases hloaded
    | some r =>
        simp only [hparse] at hloaded
        have hoperands : r.operands = words := by
          rw [hwords, List.map_cons]
          exact operands_of_effectOf hloaded
        exact Getopt.operands_of_parse hparse hoperands
  · intro hnone
    rw [modprobe, Getopt.parse_of_operands hnone, hwords]
    exact ⟨rfl, hallowed, rfl⟩

/-- The options of the command that its manual lists. -/
def modprobeOptions : Getopt.Table Flag where
  short := [('a', .all, false), ('r', .remove, false), ('R', .halt, false), ('i', .manner, false),
    ('b', .manner, false), ('f', .manner, false), ('D', .halt, false), ('c', .halt, false),
    ('n', .halt, false), ('C', .manner, true), ('d', .manner, true), ('S', .manner, true),
    ('s', .manner, false), ('q', .manner, false), ('v', .manner, false), ('V', .halt, false),
    ('h', .halt, false)]
  long := [("all", .all, false), ("remove", .remove, false), ("resolve-alias", .halt, false),
    ("first-time", .manner, false), ("ignore-install", .manner, false),
    ("ignore-remove", .manner, false), ("use-blacklist", .manner, false),
    ("force", .manner, false), ("force-modversion", .manner, false),
    ("force-vermagic", .manner, false), ("show-depends", .halt, false),
    ("showconfig", .halt, false), ("show-config", .halt, false),
    ("show-modversions", .halt, false), ("dry-run", .halt, false), ("show", .halt, false),
    ("config", .manner, true), ("dirname", .manner, true), ("set-version", .manner, true),
    ("syslog", .manner, false), ("quiet", .manner, false), ("verbose", .manner, false),
    ("version", .halt, false), ("help", .halt, false)]

/-- A parameter with a value is one. -/
theorem modprobe_serves_parameter :
    (modprobe modprobeOptions ["vfio", "enable=1"]).Serves ["vfio"] ⟨"vfio", ["enable=1"]⟩ :=
  (modprobe_serves_iff modprobeOptions ["vfio"] ⟨"vfio", ["enable=1"]⟩ ["vfio", "enable=1"]
    (by decide)).mpr (by decide)

/-- A request to load a module removes it, and another one with it. -/
theorem removeOption_unserved :
    loadModule ["vfio"] ⟨"vfio", ["-r", "zfs"]⟩ = .ok ["vfio", "-r", "zfs"] ∧
      (modprobe modprobeOptions ["vfio", "-r", "zfs"]).removed = ["vfio", "zfs"] ∧
      ¬ (modprobe modprobeOptions ["vfio", "-r", "zfs"]).Serves ["vfio"]
        ⟨"vfio", ["-r", "zfs"]⟩ := by
  have hremoved : (modprobe modprobeOptions ["vfio", "-r", "zfs"]).removed = ["vfio", "zfs"] := by
    decide
  refine ⟨by decide, hremoved, ?_⟩
  rintro ⟨-, -, hnone⟩
  rw [hremoved] at hnone
  cases hnone

end PmxAgents.HardwareInstaller
