/-
The two commands on a log of edits: to show the tree that it builds, and to
check that the usage of its quotas is in order.
-/
import QuotaTree.Config.Fields
import QuotaTree.Edit.Fields
import QuotaTree.Listing
import QuotaTree.Request.Replay

namespace QuotaTree

inductive Command where
  | check
  | inspect (path : String)
  deriving DecidableEq, Repr

/-- What a command leaves: an exit code and what it has written. -/
structure Outcome where
  code : Nat
  out : String := ""
  err : String := ""
  deriving DecidableEq, Repr

/-- Why a command fails, with a cause if there is one beneath. -/
structure CommandError where
  message : String
  cause : Option String := none
  deriving DecidableEq, Repr

/-- A text with its lines indented. -/
def indentLines (text : String) : String :=
  "    " ++ String.ofList (text.toList.flatMap fun char =>
    if char = '\n' then "\n    ".toList else [char])

def CommandError.text (error : CommandError) : String :=
  match error.cause with
  | none => "Error: " ++ error.message ++ "\n"
  | some cause =>
    "Error: " ++ error.message ++ "\n\nCaused by:\n" ++ indentLines cause ++
      "\n"

/-- A file that a command has been given: its name, and its text or why it could
not be read. -/
structure SourceFile where
  name : String
  content : Except String String

namespace SourceFile

/-- What a file of some kind holds. -/
def load {α : Type} (file : SourceFile) (kind : String)
    (read? : String → Option α) : Except CommandError α :=
  match file.content with
  | .error cause =>
    .error ⟨"couldn't read " ++ kind ++ " from " ++ file.name, some cause⟩
  | .ok text =>
    match read? text with
    | some value => .ok value
    | none => .error ⟨"couldn't parse " ++ kind ++ " from " ++ file.name,
      some "malformed document"⟩

end SourceFile

namespace Command

/-- The namespace that a log builds. -/
def load (log : SourceFile) (settings : Option SourceFile) :
    Except CommandError Namespace := do
  let config ← match settings with
    | some file => file.load "config" Config.read?
    | none => pure {}
  let edits ← log.load "edit log" Edit.readLog?
  match Namespace.replay edits (Namespace.fresh config) with
  | .ok _ ns => pure ns
  | .error error _ =>
    throw ⟨"couldn't replay " ++ log.name,
      some (error.message ++ " (errno " ++ toString error.code ++ ")")⟩

/-- Show a subtree; what was written before a failure stays written. -/
def runInspect (ns : Namespace) (path : String) : Outcome :=
  let listing := ns.listTree path
  match listing.failure with
  | none => { code := 0, out := listing.text }
  | some error => { code := 1, out := listing.text,
                    err := CommandError.text ⟨error.message, none⟩ }

/-- The line on what a recount has found. -/
def reportLine (ns : Namespace) (report : RecountReport) : String :=
  toString ns.inodeCount ++ " inode(s), " ++ toString report.directories ++
    " quota director(ies), " ++ toString report.inconsistencies ++
      " inconsistent, " ++
    toString report.violations ++ " in violation\n"

/-- Recount once more: after a replay there must be nothing to mend. -/
def runCheck (ns : Namespace) : Outcome :=
  match Namespace.recount ns with
  | .error error _ =>
    { code := 1
      err := CommandError.text
        ⟨"couldn't recompute quota: " ++ error.message, none⟩ }
  | .ok report ns =>
    let line := reportLine ns report
    if 0 < report.inconsistencies ∨ 0 < report.violations then
      { code := 1, out := line,
        err := CommandError.text ⟨"namespace is not consistent", none⟩ }
    else { code := 0, out := line ++ "ok\n" }

def run (command : Command) (log : SourceFile) (settings : Option SourceFile) :
    Outcome :=
  match load log settings with
  | .error error => { code := 1, err := error.text }
  | .ok ns =>
    match command with
    | .check => runCheck ns
    | .inspect path => runInspect ns path

end Command

/-- A command line: what to do, the log, and the file of settings. -/
structure Invocation where
  command : Command
  log : String
  settings : Option String := none
  deriving DecidableEq, Repr

namespace Invocation

/-- The options after a command's name: the log, the settings and the path, each
given once at most. -/
def readOptions : List String → Option String → Option String → Option String →
    Option (String × Option String × Option String)
  | [], some log, settings, path => some (log, settings, path)
  | [], none, _, _ => none
  | option :: value :: rest, log, settings, path =>
    if (option = "--config" ∨ option = "-c") ∧ settings = none then
      readOptions rest log (some value) path
    else if (option = "--path" ∨ option = "-p") ∧ path = none then
      readOptions rest log settings (some value)
    else if log = none ∧ option.toList.head? ≠ some '-' then
      readOptions (value :: rest) (some option) settings path
    else none
  | [word], log, settings, path =>
    if log = none ∧ word.toList.head? ≠ some '-' then
      some (word, settings, path) else none

/-- Read the words after the program's name. -/
def read : List String → Option Invocation
  | "check" :: rest =>
    match readOptions rest none none none with
    | some (log, settings, none) => some ⟨.check, log, settings⟩
    | _ => none
  | "inspect" :: rest =>
    match readOptions rest none none none with
    | some (log, settings, path) =>
      some ⟨.inspect (path.getD "/"), log, settings⟩
    | none => none
  | _ => none

end Invocation

end QuotaTree
