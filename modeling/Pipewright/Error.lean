import Pipewright.Digraph.Reader

/-!
# Errors

Every operation that can be refused answers with an `Error`, which says why. An
error has a `kind`, a stable word for programs, and a `message` for people, and
it is either a *domain* outcome, a handled answer such as a refused transition,
or an unexpected failure of the environment. The two differ in the exit code of
the command line.
-/

namespace Pipewright

inductive FileFault where
  | notFound
  | isDirectory
  | notDirectory
  | alreadyExists
  | notUtf8
  | nameTooLong
  /-- A directory cannot be replaced under a name that is not its own. -/
  | busy
  /-- A path holds a null character. -/
  | nullInPath
  | other (text : String)
  deriving DecidableEq, Repr

def FileFault.message : FileFault → String
  | .notFound => "No such file or directory (os error 2)"
  | .isDirectory => "Is a directory (os error 21)"
  | .notDirectory => "Not a directory (os error 20)"
  | .alreadyExists => "File exists (os error 17)"
  | .notUtf8 => "stream did not contain valid UTF-8"
  | .nameTooLong => "File name too long (os error 36)"
  | .busy => "Device or resource busy (os error 16)"
  | .nullInPath => "file name contained an unexpected NUL byte"
  | .other text => text

/-- Why an operation was refused or failed. -/
inductive Error where
  /-- A graph file's text, or a value in it, is not what it has to be. -/
  | malformed (line column : Nat) (message : String) (snippet : Option String)
  /-- A graph file names something that it does not declare. -/
  | unresolved (reference message : String)
  /-- A graph breaks rules of well-formed pipelines; `report` lists them. -/
  | invalid (report : String)
  | nodeNotFound (node : String)
  | illegalTransition (node source target : String)
  /-- A rule that guards a transition refused it. -/
  | guardRail (node rule message : String)
  | retriesExhausted (node : String) (attempts : Nat)
  | lockContention (path : String) (attempts : Nat)
  | invalidId (id : String)
  | identityNotFound (id : String)
  | identityActive (role name id : String)
  | hookNotFound (identity : String)
  | hookExists (identity : String)
  | hookConsumed (identity consumedBy : String)
  | entryNotFound (branch : String)
  | duplicateEntry (branch : String)
  | git (command message : String)
  | file (fault : FileFault)
  /-- A text is not the JSON that was expected. -/
  | json
  | other (text : String)
  /-- A reckoning with times left the range of the calendar. -/
  | timeRange
  deriving DecidableEq, Repr

namespace Error

def kind : Error → String
  | malformed .. => "parse_error"
  | unresolved .. => "parse_error"
  | invalid .. => "validation_error"
  | nodeNotFound .. => "node_not_found"
  | illegalTransition .. => "illegal_transition"
  | guardRail .. => "guard_rail"
  | retriesExhausted .. => "retries_exhausted"
  | lockContention .. => "lock_contention"
  | invalidId .. => "invalid_id"
  | identityNotFound .. => "identity_not_found"
  | identityActive .. => "identity_active"
  | hookNotFound .. => "hook_not_found"
  | hookExists .. => "hook_exists"
  | hookConsumed .. => "hook_consumed"
  | entryNotFound .. => "queue_entry_not_found"
  | duplicateEntry .. => "duplicate_queue_entry"
  | git .. => "git"
  | file .. => "io"
  | json => "json"
  | other .. => "other"
  | timeRange => "time_range"

def message : Error → String
  | malformed line column text _ =>
    "DOT parse error at line " ++ Numeral.text line ++ ", col " ++ Numeral.text column ++
      ": " ++ text
  | unresolved reference text => "Unresolved reference '" ++ reference ++ "': " ++ text
  | invalid report => "Pipeline validation failed: " ++ report
  | nodeNotFound node => "Node '" ++ node ++ "' not found in graph"
  | illegalTransition node source target =>
    "Illegal transition for node '" ++ node ++ "': " ++ source ++ " -> " ++ target
  | guardRail node rule text =>
    "Guard rail '" ++ rule ++ "' rejected transition of node '" ++ node ++ "': " ++ text
  | retriesExhausted node attempts =>
    "Max retries exhausted for node '" ++ node ++ "' after " ++ Numeral.text attempts ++ " attempts"
  | lockContention path attempts =>
    "Could not lock " ++ path ++ " after " ++ Numeral.text attempts ++ " attempts"
  | invalidId id => "Invalid id '" ++ id ++ "': ids may not contain path separators or '..'"
  | identityNotFound id => "Identity '" ++ id ++ "' not found"
  | identityActive role name id =>
    "Identity " ++ role ++ "/" ++ name ++ " is already active as '" ++ id ++ "'"
  | hookNotFound identity => "No hook recorded for identity '" ++ identity ++ "'"
  | hookExists identity => "Hook for identity '" ++ identity ++ "' already exists"
  | hookConsumed identity consumedBy =>
    "Hook for identity '" ++ identity ++ "' was already consumed by '" ++ consumedBy ++ "'"
  | entryNotFound branch => "No merge queue entry for branch '" ++ branch ++ "'"
  | duplicateEntry branch => "Branch '" ++ branch ++ "' is already in the merge queue"
  | git command text => "git " ++ command ++ " failed: " ++ text
  | file fault => "IO error: " ++ fault.message
  | json => "JSON error"
  | other text => text
  | timeRange => "time out of range"

/-- The error is a handled outcome and no failure of the environment. -/
def isDomain : Error → Bool
  | file .. => false
  | json => false
  | git .. => false
  | other .. => false
  | timeRange => false
  | _ => true

def isRetryable : Error → Bool
  | lockContention .. => true
  | _ => false

/-- The exit code of a command that ends with the error. -/
def exitCode (e : Error) : Nat :=
  if e.isDomain then 1 else 2

end Error

/-- A text that is no graph file, as an error of the program. -/
def Digraph.ParseFault.toError (f : Digraph.ParseFault) : Error :=
  .malformed f.line f.column f.reason.message f.snippet

/-- The graph that a graph file's text declares, or the error that reports why it
declares none. -/
def Digraph.read (text : String) : Except Error Digraph :=
  (Digraph.parse text).mapError Digraph.ParseFault.toError

end Pipewright
