import Pipewright.Json.Record
import Pipewright.Store.Basic
import Pipewright.Text
import Pipewright.Time

/-!
# What an engine works with

Actions on a store, the locks that are taken and the waiting for them, files of records, and the
settings of an engine.
-/

/-!
## Actions

An `Action` is what a process does to the store: it answers with a value or with
an error, and leaves a store behind in either case. Nothing is undone when an
action fails, so what it wrote before the failure stays, as it does when a
process stops halfway.

What a process finds around it and cannot change is its `Host`: the clock, its
own number, which other processes are alive, the locks that others hold, and a
number to name something new by.
-/

namespace Pipewright

structure Host where
  /-- The readings of the clock, in the order in which an action takes them. -/
  clock : Nat → Instant
  /-- The number of the process itself. -/
  pid : UInt32
  /-- Which processes there are, as far as numbers can be those of processes. -/
  alive : UInt32 → Bool
  /-- The places of the lock files that are held. -/
  held : List (List String) := []
  /-- A number that has not been used before. -/
  fresh : Uuid

/-- The process with a number exists. Numbers of processes are positive and have a word
of 32 bits with sign. -/
def Host.isAlive (h : Host) (pid : UInt32) : Bool :=
  pid != 0 && pid < 2147483648 && h.alive pid

abbrev Action := ReaderT Host (ExceptT Error (StateM Store))

namespace Action

variable {α : Type}

/-- The answer of an action, and the store after it. -/
def perform (a : Action α) (h : Host) (s : Store) : Except Error α × Store := a h s

def now : Action Instant := do
  return (← read).clock 0

def ofExcept (r : Except Error α) : Action α :=
  match r with
  | .ok a => return a
  | .error e => throw e

/-- What an action answers, an error included; so nothing is thrown. -/
def attempt (a : Action α) : Action (Except Error α) :=
  tryCatch (do return .ok (← a)) fun e => return .error e

/-- What is read from the store; a fault is an error. -/
def reading (f : Store → Except FileFault α) : Action α := do
  match f (← get) with
  | .ok a => return a
  | .error fault => throw (.file fault)

/-- What is read from the store; nothing if it is not there. -/
def readingIfThere (f : Store → Except FileFault α) : Action (Option α) := do
  match f (← get) with
  | .ok a => return some a
  | .error .notFound => return none
  | .error fault => throw (.file fault)

/-- A change of the store; a fault is an error, and what was changed before it stays. -/
def writing (f : Store → Except FileFault Unit × Store) : Action Unit := do
  let (r, s) := f (← get)
  set s
  match r with
  | .ok _ => return ()
  | .error fault => throw (.file fault)

/-- A directory is made, and those that lead to it. -/
def makeDirs (path : String) : Action Unit :=
  writing (·.makeDirs path)

/-- The contents of a file are replaced as a whole. -/
def replaceFile (path : String) (bytes : ByteArray) : Action Unit := do
  let now ← now
  writing (·.replace path bytes now)

/-- Bytes are added at the end of a file. -/
def appendFile (path : String) (bytes : ByteArray) : Action Unit := do
  let now ← now
  writing (·.append path bytes now)

end Action

/-!
## Waiting for a lock

How long to wait between two attempts to take a lock, and how often to try.
Exponential waiting doubles with each attempt and stops at a longest wait. It is
reckoned in whole thousandths of a second in a word of 64 bits: the base is cut
to such a word, doubling stops after thirty-two times, and a product that does
not fit becomes the largest word.
-/

-- Sums and powers are those of the core library, whatever other instances there are.
attribute [local instance (high)] Zero.ofOfNat0 instPowNat

/-- How long to wait after an attempt. -/
inductive Backoff where
  | fixed (delay : Span)
  | exponential (base longest : Span)
  | none
  deriving DecidableEq, Repr

namespace Backoff

def delay (b : Backoff) (attempt : Nat) : Span :=
  match b with
  | fixed d => d
  | exponential base longest =>
    let factor := 2 ^ Nat.min attempt 32
    let millis := Nat.min (base.millis % 2 ^ (64 : Nat) * factor) (2 ^ (64 : Nat) - 1)
    (Span.ofMillis millis).min longest
  | none => ⟨0⟩

/-- Waiting that starts at 25 thousandths of a second and ends at one second. -/
def standard : Backoff := exponential (.ofMillis 25) (.ofSeconds 1)

end Backoff

/-- How often and how patiently to try for a lock. -/
structure LockPolicy where
  attempts : Nat
  backoff : Backoff
  deriving DecidableEq, Repr

namespace LockPolicy

def standard : LockPolicy := ⟨20, .standard⟩

def noWait : LockPolicy := ⟨1, .none⟩

/-- The waits between all attempts taken together; none if that is no span. The wait
is the same from the thirty-third attempt on. -/
def totalWait (p : LockPolicy) : Option Span :=
  let waits := p.attempts - 1
  let early := ((List.range (Nat.min waits 33)).map fun a => (p.backoff.delay a).nanos).sum
  let total := early + (waits - 33) * (p.backoff.delay 33).nanos
  if total ≤ Span.longest.nanos then some ⟨total⟩ else none

end LockPolicy

/-!
## Locks

Whoever reads a file in order to write it anew takes its lock first. The lock of
a file is another file beside it, which is made if it is not there and never
removed. Locks are between those who ask for them: a file can be read and
written without its lock.

A lock that is held, by another process or by the same one, cannot be taken. The
attempts and the waits between them are those of a `LockPolicy`; here nothing
happens while an action waits, so that a lock that is held stays so, and all the
attempts end in one error.
-/

def lockPath (path : String) : String :=
  Path.withFileName path ((Path.fileName? path).getD "" ++ ".lock")

namespace Action

variable {α : Type}

/-- The place of a lock file, which is there from then on. -/
def openLock (path : String) : Action (List String) := do
  match Path.parent? path with
  | none => pure ()
  | some "" => pure ()
  | some dir => makeDirs dir
  let now ← now
  let (r, s) := (← get).create path now
  set s
  match r with
  | .ok place => return place
  | .error fault => throw (.file fault)

/-- The action done while the lock file is held. -/
def withLockFile (path : String) (policy : LockPolicy) (body : Action α) : Action α := do
  let place ← openLock path
  if (← read).held.contains place then
    throw (.lockContention path (Nat.max policy.attempts 1))
  withReader (fun h => { h with held := place :: h.held }) body

/-- The action done while the lock of a data file is held. -/
def withLock (path : String) (policy : LockPolicy) (body : Action α) : Action α :=
  withLockFile (lockPath path) policy body

end Action

/-!
## Files of records

A record is kept in a file of its own, indented and with a line feed at the end,
or as one line among others in a log. A file of its own is replaced as a whole;
a log only grows.

Where keys from outside become file names, `checkKey` refuses those that would
lead out of the directory.
-/

/-- The key can be the name of a file: it is not empty and holds no separator, no
null character and no two dots in a row. -/
def isFileKey (key : String) : Bool :=
  let cs := key.toList
  !cs.isEmpty && !cs.contains '/' && !cs.contains '\\' && !cs.contains '\x00'
    && !hasTwoDots cs
where
  /-- Two dots stand next to each other. -/
  hasTwoDots : List Char → Bool
    | '.' :: '.' :: _ => true
    | _ :: cs => hasTwoDots cs
    | [] => false

/-- A key that cannot be the name of a file is an error. -/
def checkKey (key : String) : Except Error Unit :=
  if isFileKey key then .ok () else .error (.invalidId key)

/-- The file in which the record with a key is kept. -/
def recordPath (dir key : String) : Except Error String := do
  checkKey key
  return Path.join dir (key ++ ".json")

namespace Action

variable {α : Type}

/-- The record in a file, if the file is there. -/
def readRecord? (read : Json.Document → Option α) (path : String) : Action (Option α) := do
  match ← readingIfThere (·.readBytes path) with
  | none => return none
  | some bytes =>
    match Json.readRecordBytes read bytes with
    | some a => return some a
    | none => throw .json

def writeRecord (path : String) (v : Json) : Action Unit :=
  replaceFile path (Json.fileText v).toUTF8

def appendRecord (path : String) (v : Json) : Action Unit :=
  appendFile path (Json.lineText v).toUTF8

/-- The records of a log, the oldest first; none if there is no log. -/
def readLog (read : Json.Document → Option α) (path : String) : Action (List α) := do
  match ← readingIfThere (·.readText path) with
  | none => return []
  | some text =>
    match Json.readLines read text with
    | some records => return records
    | none => throw .json

end Action

/-!
## Configuration

An engine keeps its files in one directory, its state directory, and reads its
configuration from a file in it. Without that file, and for every field the
file leaves out, there are defaults. The directory itself is always the one the
configuration was read from.
-/

structure Config where
  stateDir : String := ".relay"
  maxRetries : UInt32 := 3
  lockAttempts : UInt64 := 20
  lockBackoffBaseMs : UInt64 := 25
  lockBackoffMaxMs : UInt64 := 1000
  signalPollIntervalMs : UInt64 := 250
  staleTimeoutSecs : UInt64 := 300
  integrationBranch : String := "main"
  repoRoot : String := "."
  testCommand : Option String := none
  deriving DecidableEq, Repr, Inhabited

namespace Config

def fieldNames : List String :=
  ["state_dir", "max_retries", "lock_attempts", "lock_backoff_base_ms", "lock_backoff_max_ms",
   "signal_poll_interval_ms", "stale_timeout_secs", "integration_branch", "repo_root",
   "test_command"]

def ofDocument? (d : Json.Document) : Option Config := do
  let base : Config := {}
  match ← Json.partialFields fieldNames d with
  | [stateDir, maxRetries, lockAttempts, baseMs, maxMs, pollMs, staleSecs, branch, root, test] =>
    return {
      stateDir := ← Json.defaulted base.stateDir Json.asText stateDir
      maxRetries := ← Json.defaulted base.maxRetries Json.asUInt32 maxRetries
      lockAttempts := ← Json.defaulted base.lockAttempts Json.asUInt64 lockAttempts
      lockBackoffBaseMs := ← Json.defaulted base.lockBackoffBaseMs Json.asUInt64 baseMs
      lockBackoffMaxMs := ← Json.defaulted base.lockBackoffMaxMs Json.asUInt64 maxMs
      signalPollIntervalMs := ← Json.defaulted base.signalPollIntervalMs Json.asUInt64 pollMs
      staleTimeoutSecs := ← Json.defaulted base.staleTimeoutSecs Json.asUInt64 staleSecs
      integrationBranch := ← Json.defaulted base.integrationBranch Json.asText branch
      repoRoot := ← Json.defaulted base.repoRoot Json.asText root
      testCommand := ← Json.optionalField Json.asText test }
  | _ => none

def toJson (c : Config) : Json := .object
  [("state_dir", .text c.stateDir), ("max_retries", .nat c.maxRetries.toNat),
   ("lock_attempts", .nat c.lockAttempts.toNat),
   ("lock_backoff_base_ms", .nat c.lockBackoffBaseMs.toNat),
   ("lock_backoff_max_ms", .nat c.lockBackoffMaxMs.toNat),
   ("signal_poll_interval_ms", .nat c.signalPollIntervalMs.toNat),
   ("stale_timeout_secs", .nat c.staleTimeoutSecs.toNat),
   ("integration_branch", .text c.integrationBranch), ("repo_root", .text c.repoRoot),
   ("test_command", .ofText? c.testCommand)]

def load (s : Store) (dir : String) : Except Error Config :=
  match s.readText (Path.join dir "config.json") with
  | .error .notFound => .ok { stateDir := dir }
  | .error f => .error (.file f)
  | .ok text =>
    match Json.readRecord ofDocument? text with
    | some c => .ok { c with stateDir := dir }
    | none => .error .json

/-! ### What follows from it -/

/-- The waiting for locks; there is always one attempt. -/
def lockPolicy (c : Config) : LockPolicy where
  attempts := Nat.max c.lockAttempts.toNat 1
  backoff := .exponential (.ofMillis c.lockBackoffBaseMs.toNat) (.ofMillis c.lockBackoffMaxMs.toNat)

/-- How long to wait between two looks for a signal. -/
def pollInterval (c : Config) : Span := .ofMillis (Nat.max c.signalPollIntervalMs.toNat 1)

/-- After how long without a sign of life an identity counts as stale. -/
def staleTimeout (c : Config) : Span := .ofSeconds c.staleTimeoutSecs.toNat

/-! ### The layout of the state directory -/

def signalsDir (c : Config) : String := Path.join c.stateDir "signals"

def identitiesDir (c : Config) : String := Path.join c.stateDir "identities"

def hooksDir (c : Config) : String := Path.join c.stateDir "hooks"

def checkpointsDir (c : Config) : String := Path.join c.stateDir "checkpoints"

def auditLog (c : Config) : String := Path.join c.stateDir "audit.jsonl"

def mergeQueue (c : Config) : String := Path.join c.stateDir "merge-queue.json"

/-- The log of entries that have left the merge queue. -/
def mergeArchive (c : Config) : String := Path.join c.stateDir "merge-archive.jsonl"

/-- The directories of the layout, in the order in which they are made. -/
def directories (c : Config) : List String :=
  [c.stateDir, c.signalsDir, c.identitiesDir, c.hooksDir, c.checkpointsDir]

end Config

end Pipewright
