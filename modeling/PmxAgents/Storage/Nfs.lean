import Mathlib.Data.List.AList
import Mathlib.Data.List.Infix
import Mathlib.Data.List.Sort
import PmxAgents.Lib.FileSystem
import PmxAgents.Lib.Glob
import PmxAgents.Lib.IpText
import PmxAgents.Lib.Text

/-!
# NFS shares

The `nfs.share` commands of the storage agent. A share is one file in the exports
directory, with the exported path, the network and the options in one line. Creating
a share writes its file and deleting a share removes it; the listing finds the files
by a pattern and reads the lines back.

## Implementation notes

The regular files are kept by their path, with their text. The exports directory is
given by the components of its cleaned path. Writing and removing a file of the
directory succeeds, and so does `exportfs`; whether the path of a share exists is an
input of the call.
-/

namespace PmxAgents.Storage.Nfs

open Lib Lib.Text Lib.FileSystem

abbrev Files := AList fun _ : Path => List Char

structure ShareParams where
  id : String
  path : String
  network : String
  options : List String

inductive CreateError where
  | invalidId
  | invalidPath
  | pathMissing
  | invalidNetwork
  | optionNotAllowed (opt : String)
  deriving DecidableEq, Repr

/-! ## Checks -/

def allowedOptions : List String :=
  ["rw", "ro", "sync", "async", "no_subtree_check", "no_root_squash"]

/-- The loop over the options: trimmed, allowed, each one once. -/
def normalise (out : List String) : List String → Except CreateError (List String)
  | [] => .ok out
  | opt :: rest =>
      if trimSpace opt ∉ allowedOptions then .error (.optionNotAllowed opt)
      else normalise (if trimSpace opt ∈ out then out else out ++ [trimSpace opt]) rest

def validateOptions (options : List String) : Except CreateError (List String) :=
  if options = [] then .ok ["rw", "sync"]
  else (normalise [] options).map (·.insertionSort nameLe)

def isValidNetwork (v : String) : Bool := v = "*" ∨ (IpText.parseCIDR v.toList).isSome

def isValidPath (v : String) : Bool := v.toList.head? = some '/' ∧ ¬ ['.', '.'] <:+: v.toList

def isSafeChar (c : Char) : Bool :=
  c == '-' || c == '_' || ('a' ≤ c && c ≤ 'z') || ('A' ≤ c && c ≤ 'Z') || ('0' ≤ c && c ≤ '9')

/-- The identifier is trimmed before the check; the name of the file has it as it is given. -/
def isSafeID (v : String) : Bool := trimSpace v ≠ "" ∧ (trimSpace v).toList.all isSafeChar

/-! ## Commands -/

/-- What a share exports. -/
structure Export where
  path : String
  network : String
  options : List String
  deriving DecidableEq, Repr

/-- The checks of `ShareCreate`, which answer with what is exported. -/
def checkShare (p : ShareParams) (pathExists : Bool) : Except CreateError Export :=
  if ¬ isSafeID p.id then .error .invalidId
  else if ¬ isValidPath p.path then .error .invalidPath
  else if ¬ pathExists then .error .pathMissing
  else if ¬ isValidNetwork p.network then .error .invalidNetwork
  else (validateOptions p.options).map fun options => ⟨p.path, p.network, options⟩

/-- The line of a share. -/
def Export.content (e : Export) : List Char :=
  e.path.toList ++ ' ' :: (e.network.toList ++
    '(' :: ([','].intercalate (e.options.map String.toList) ++ [')', '\n']))

def fileName (id : String) : String := "pmx-" ++ id ++ ".exports"

def shareCreate (dir : Path) (files : Files) (p : ShareParams) (pathExists : Bool) :
    Except CreateError Files :=
  (checkShare p pathExists).map fun e => files.insert (dir ++ [fileName p.id]) e.content

/-- A file that does not exist counts as removed. -/
def shareDelete (dir : Path) (files : Files) (id : String) : Except CreateError Files :=
  if ¬ isSafeID id then .error .invalidId else .ok (files.erase (dir ++ [fileName id]))

/-! ## Listing -/

structure Share where
  id : String
  path : String
  network : String
  options : List String
  deriving DecidableEq, Repr

inductive ParseError where
  | invalidLine
  | invalidOptions
  deriving DecidableEq, Repr

inductive ListError where
  | badPattern
  | unreadable (file : Path)
  | unparsable (file : Path) (error : ParseError)
  deriving DecidableEq, Repr

/-- The text before the last closing parenthesis. -/
def beforeLastClose (s : List Char) : List Char := ((s.reverse.dropWhile (· ≠ ')')).drop 1).reverse

/-- The network and the options: the opening parenthesis is the first one, and not in front, the
closing one is the last one, and after it. -/
def parseClient (netAndOpts : List Char) : Except ParseError (List Char × List (List Char)) :=
  let network := before '(' netAndOpts
  let rest := netAndOpts.drop (network.length + 1)
  if '(' ∉ netAndOpts ∨ network = [] ∨ ')' ∉ rest then .error .invalidOptions
  else if beforeLastClose rest = [] then .ok (network, [])
  else .ok (network, split ',' (beforeLastClose rest))

def parseLine (line : List Char) : Except ParseError Export :=
  match fields line with
  | [path, netAndOpts] =>
      (parseClient netAndOpts).map fun client =>
        ⟨String.ofList path, String.ofList client.1, client.2.map String.ofList⟩
  | _ => .error .invalidLine

def trimPrefix (s start : String) : String :=
  if start.toList <+: s.toList then String.ofList (s.toList.drop start.toList.length) else s

def shareId (file : Path) : String :=
  trimSuffix (trimPrefix (file.getLast?.getD "") "pmx-") ".exports"

/-- One round of the loop of `ShareList`. A file without text is passed over. -/
def readShare (files : Files) (file : Path) : Except ListError (Option Share) :=
  match files.lookup file with
  | none => .error (.unreadable file)
  | some data =>
      if trim data = [] then .ok none
      else
        match parseLine (trim data) with
        | .error err => .error (.unparsable file err)
        | .ok e => .ok (some ⟨shareId file, e.path, e.network, e.options⟩)

def pathText (p : Path) : String := String.join (p.map ("/" ++ ·))

def pathLe (a b : Path) : Prop := nameLe (pathText a) (pathText b)

instance : DecidableRel pathLe := fun _ _ => inferInstanceAs (Decidable (nameLe _ _))

def shareList (dir : Path) (files : Files) : Except ListError (List Share) :=
  match Glob.glob (dir ++ ["pmx-*.exports"]) files.keys with
  | none => .error .badPattern
  | some found => ((found.insertionSort pathLe).mapM (readShare files)).map (·.filterMap id)

/-! ## What `exportfs` reads -/

/-- The exports of a line: its first word is the path and every other word a client, with options
in parentheses. Without a client the path is exported to every host. -/
def lineExports (line : List Char) : List (String × String) :=
  match wordsBy (fun c => c == ' ' || c == '\t') line with
  | [] => []
  | [path] => [(String.ofList path, "*")]
  | path :: clients =>
      clients.map fun client => (String.ofList path, String.ofList (before '(' client))

def exportsOf (data : List Char) : List (String × String) := (split '\n' data).flatMap lineExports

/-! ## Histories -/

inductive Call where
  | create (p : ShareParams) (pathExists : Bool)
  | delete (id : String)

/-- A call that is refused leaves the files as they are. -/
def step (dir : Path) (files : Files) : Call → Files
  | .create p pathExists => (shareCreate dir files p pathExists).toOption.getD files
  | .delete id => (shareDelete dir files id).toOption.getD files

def run (dir : Path) (files : Files) (calls : List Call) : Files := calls.foldl (step dir) files

/-- The shares that the accepted calls have asked for, by identifier. -/
abbrev Mapping := String → Option Export

def record (m : Mapping) : Call → Mapping
  | .create p pathExists =>
      match checkShare p pathExists with
      | .ok e => Function.update m p.id (some e)
      | .error _ => m
  | .delete id => if isSafeID id then Function.update m id none else m

def requested (calls : List Call) : Mapping := calls.foldl record fun _ => none

end PmxAgents.Storage.Nfs
